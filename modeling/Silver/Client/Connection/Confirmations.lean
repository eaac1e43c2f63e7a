import Silver.Protocol.Wire

/-!
# Confirmations on the authenticated connection

The relay answers the frames of a connection in order, but an error names no frame.  The
task keeps queues of what is not answered yet and takes an error for the refusal of
whichever is likeliest: an awaited publish or revocation that is the next of its kind, a
key package deposit, a fetch.
-/

namespace Silver.Client.Connection.Confirmations

open Foundation Protocol Confirmations List

/-- A frame that is answered, with the caller who waits for the answer. -/
inductive Request where
  | publish (caller : Option Nat)
  | revokeDevice (caller : Nat)
  | keyPackages (caller : Nat)
  | keyPackage (user : String) (caller : Nat)
  | lookup (user : String) (caller : Nat)
deriving DecidableEq

/-- What the relay's next `published` answers. -/
inductive Expect where
  | publish (caller : Option Nat)
  | revokeDevice (caller : Nat)
deriving DecidableEq

namespace Expect

def awaited : Expect -> Bool
  | .revokeDevice _ | .publish (some _) => true
  | .publish none => false

def caller : Expect -> Option Nat
  | .publish caller => caller
  | .revokeDevice caller => some caller

end Expect

namespace Request

def caller : Request -> Option Nat
  | .publish caller => caller
  | .revokeDevice caller | .keyPackages caller | .keyPackage _ caller | .lookup _ caller =>
    some caller

def expect : Request -> Option Expect
  | .publish caller => some (.publish caller)
  | .revokeDevice caller => some (.revokeDevice caller)
  | .keyPackages _ | .keyPackage _ _ | .lookup _ _ => none

def deposit : Request -> Option Nat
  | .keyPackages caller => some caller
  | .publish _ | .revokeDevice _ | .keyPackage _ _ | .lookup _ _ => none

def fetch : Request -> Option (String × Nat)
  | .keyPackage user caller => some (user, caller)
  | .publish _ | .revokeDevice _ | .keyPackages _ | .lookup _ _ => none

end Request

/-- What comes back. -/
inductive Answer where
  | published
  | keyPackageStatus (remaining : Nat) (consumed : List (List UInt8))
  | keyPackageResult (user : String) (package : Option (List UInt8)) (lastResort : Bool)
  | lookupResult (user : String)
  | error (code : ErrorCode) (message : String)
deriving DecidableEq

namespace Answer

def fits : Answer -> Request -> Bool
  | .error _ _, _ => true
  | .published, .publish _ | .published, .revokeDevice _ => true
  | .keyPackageStatus _ _, .keyPackages _ => true
  | .keyPackageResult user _ _, .keyPackage asked _ => user = asked
  | .lookupResult user, .lookup asked _ => user = asked
  | _, _ => false

end Answer

/-- An answer and the caller it was given to. -/
structure Word where
  caller : Nat
  answer : Answer
deriving DecidableEq

/-- A login session as its requests see it: the frames not answered yet in the order they
were sent, the task's queues, the relay's answers to callers' frames, and what callers
heard.  The fetches of all users are one list; each user's are a queue. -/
structure State where
  published : Bool
  ended : Bool
  pending : List Request
  expecting : List Expect
  deposits : List Nat
  keyPackageReplies : List (String × Nat)
  issued : Nat
  verdicts : List Word
  confirmations : List Word
  packages : List Word
deriving DecidableEq

def start : State :=
  ⟨false, false, [.publish none], [.publish none], [], [], 0, [], [], []⟩

/-- What can happen: a request, the answer to the first frame not answered yet (with the
user whose queue a map walk meets first), the connection ending. -/
inductive Move where
  | republish (awaited : Bool)
  | revokeDevice
  | keyPackages
  | keyPackage (user : String)
  | lookup (user : String)
  | answer (answer : Answer) (pick : String)
  | disconnect
deriving DecidableEq

namespace State

def send (state : State) (request : Request) : State :=
  { state with
    pending := state.pending ++ [request]
    expecting := state.expecting ++ request.expect.toList
    deposits := state.deposits ++ request.deposit.toList
    keyPackageReplies := state.keyPackageReplies ++ request.fetch.toList
    issued := state.issued + 1 }

def confirm (state : State) (expected : Expect) (answer : Answer) : State :=
  { state with
    expecting := state.expecting.tail
    confirmations := state.confirmations ++
      (expected.caller.map fun caller => Word.mk caller answer).toList }

def answerDeposit (state : State) (answer : Answer) : State :=
  match state.deposits with
  | [] => state
  | caller :: rest =>
    { state with deposits := rest, packages := state.packages ++ [⟨caller, answer⟩] }

def answerFetch (state : State) (user : String) (answer : Answer) : State :=
  match state.keyPackageReplies.find? (fun entry => entry.1 = user) with
  | none => state
  | some entry =>
    { state with
      keyPackageReplies := state.keyPackageReplies.eraseP (fun entry => entry.1 = user)
      packages := state.packages ++ [⟨entry.2, answer⟩] }

def receiveError (state : State) (answer : Answer) (pick : String) : State :=
  if state.published = false then { state with ended := true }
  else
    match state.expecting.head?.filter Expect.awaited with
    | some expected => state.confirm expected answer
    | none =>
      if state.deposits = [] then state.answerFetch pick answer
      else state.answerDeposit answer

/-- A frame from the relay. -/
def receive (state : State) (pick : String) : Answer -> State
  | .error code message => state.receiveError (.error code message) pick
  | .published =>
    match state.expecting.head? with
    | some (.revokeDevice caller) => state.confirm (.revokeDevice caller) .published
    | some (.publish caller) =>
      { state.confirm (.publish caller) .published with published := true }
    | none => { state with published := true }
  | .keyPackageStatus remaining consumed =>
    state.answerDeposit (.keyPackageStatus remaining consumed)
  | .keyPackageResult user package lastResort =>
    state.answerFetch user (.keyPackageResult user package lastResort)
  | .lookupResult _ => state

def answered (state : State) (request : Request) (answer : Answer) : State :=
  { state with
    pending := state.pending.tail
    verdicts := state.verdicts ++ (request.caller.map fun caller => Word.mk caller answer).toList }

def meets (state : State) (pick : String) : Prop :=
  state.keyPackageReplies = [] ∨ pick ∈ state.keyPackageReplies.map Prod.fst
deriving Decidable

/-- One thing that happens in the session, until it ends. -/
def step (state : State) (move : Move) : Option State :=
  if state.ended then none
  else
    match move with
    | .republish awaited =>
      some (state.send (.publish (if awaited then some state.issued else none)))
    | .revokeDevice => some (state.send (.revokeDevice state.issued))
    | .keyPackages => some (state.send (.keyPackages state.issued))
    | .keyPackage user => some (state.send (.keyPackage user state.issued))
    | .lookup user => some (state.send (.lookup user state.issued))
    | .answer answer pick =>
      match state.pending with
      | request :: _ =>
        if answer.fits request ∧ state.meets pick then
          some ((state.answered request answer).receive pick answer)
        else none
      | [] => none
    | .disconnect => some { state with ended := true }

end State

/-- The answers that can come to a request. -/
inductive Answer.Suits : Answer -> Request -> Prop where
  | published {request : Request} {expected : Expect} (own : request.expect = some expected) :
      Answer.published.Suits request
  | status : (keyPackageStatus remaining consumed).Suits (.keyPackages caller)
  | result : (keyPackageResult user package lastResort).Suits (.keyPackage user caller)
  | looked : (lookupResult user).Suits (.lookup user caller)
  | error : (Answer.error code message).Suits request

theorem Answer.suits_of_fits {answer : Answer} {request : Request}
    (fits : answer.fits request = true) : answer.Suits request := by
  cases answer with
  | error => exact .error
  | _ =>
    cases request <;> first
      | exact .published rfl
      | exact .status
      | exact of_decide_eq_true fits ▸ .result
      | exact of_decide_eq_true fits ▸ .looked
      | cases fits

/-- What a step amounts to: a request sent, the first frame answered, or the end. -/
inductive State.Happened (state : State) : Move -> State -> Prop where
  | sent {move : Move} {request : Request}
      (fresh : request.caller = none ∨ request.caller = some state.issued) :
      state.Happened move (state.send request)
  | answered {request : Request} {rest : List Request} {answer : Answer} {pick : String}
      (going : state.ended = false)
      (first : state.pending = request :: rest)
      (suits : answer.Suits request)
      (meets : state.meets pick) :
      state.Happened (.answer answer pick) ((state.answered request answer).receive pick answer)
  | closed {move : Move} : state.Happened move { state with ended := true }

theorem State.happened_of_step {state after : State} (ran : state.step move = some after) :
    state.Happened move after := by
  unfold step at ran
  split at ran
  · cases ran
  next going =>
    cases move with
    | republish awaited =>
      cases ran
      cases awaited
      · exact .sent (.inl rfl)
      · exact .sent (.inr rfl)
    | revokeDevice | keyPackages | keyPackage user | lookup user =>
      cases ran
      exact .sent (.inr rfl)
    | answer answer =>
      dsimp only at ran
      split at ran
      next first =>
        split at ran
        next honest =>
          cases ran
          exact .answered (by simpa using going) first (Answer.suits_of_fits honest.1) honest.2
        · cases ran
      · cases ran
    | disconnect =>
      cases ran
      exact .closed

/-- A refusal meets the queue of publishes and revocations only where it is theirs: no
publish nobody waits for is refused, and no other frame while an awaited one is next. -/
def State.confirmsOwn (state : State) : Move -> Bool
  | .answer (.error _ _) _ =>
    !state.published ||
      match state.pending.head? with
      | some (.publish none) => false
      | some (.keyPackages _) | some (.keyPackage _ _) | some (.lookup _ _) =>
        !state.expecting.head?.any Expect.awaited
      | some (.publish (some _)) | some (.revokeDevice _) | none => true
  | _ => true

/-- A refusal meets the deposits and fetches only where it is theirs: no lookup is refused
while one of them is pending, and no fetch while a deposit or another user's fetch is. -/
def State.answersOwn (state : State) : Move -> Bool
  | .answer (.error _ _) _ =>
    !state.published ||
      match state.pending.head? with
      | some (.lookup _ _) => state.deposits.isEmpty && state.keyPackageReplies.isEmpty
      | some (.keyPackage user _) => state.deposits.isEmpty &&
          state.keyPackageReplies.all fun entry => entry.1 = user
      | some (.publish _) | some (.revokeDevice _) | some (.keyPackages _) | none => true
  | _ => true

/-- The queue of publishes and revocations is those not answered yet, and what was heard
of them is the relay's answer to the caller's own frame. -/
structure State.Confirming (state : State) : Prop where
  expecting : state.ended = false -> state.expecting = state.pending.filterMap Request.expect
  heard : ∀ word ∈ state.confirmations, word ∈ state.verdicts

/-- The queues of deposits and fetches are those not answered yet, and what was heard of
them is the relay's answer to the caller's own frame. -/
structure State.Depositing (state : State) : Prop where
  deposits : state.ended = false -> state.deposits = state.pending.filterMap Request.deposit
  fetches : state.ended = false -> state.keyPackageReplies = state.pending.filterMap Request.fetch
  heard : ∀ word ∈ state.packages, word ∈ state.verdicts

theorem State.receive_ledger (state : State) (pick : String) (answer : Answer) :
    (state.receive pick answer).pending = state.pending ∧
      (state.receive pick answer).verdicts = state.verdicts ∧
      (state.receive pick answer).issued = state.issued := by
  cases answer <;> grind [receive, receiveError, answerDeposit, answerFetch, confirm]

namespace State.Confirming

variable {state after : State}

theorem start : start.Confirming := by
  refine ⟨fun _ => rfl, fun word mem => ?_⟩
  cases mem

section

variable (confirming : state.Confirming)
include confirming

theorem answerDeposit (answer : Answer) : (state.answerDeposit answer).Confirming := by
  unfold State.answerDeposit
  split <;> exact { confirming with }

theorem answerFetch (user : String) (answer : Answer) :
    (state.answerFetch user answer).Confirming := by
  unfold State.answerFetch
  split <;> exact { confirming with }

theorem send (request : Request) : (state.send request).Confirming := by
  refine ⟨fun going => ?_, confirming.heard⟩
  have before := confirming.expecting going
  cases kind : request.expect <;> simp [State.send, before, kind]

theorem answered_heard (request : Request) (answer : Answer) :
    ∀ word ∈ state.confirmations, word ∈ (state.answered request answer).verdicts :=
  fun word mem => mem_append.mpr (.inl (confirming.heard word mem))

section Answered

variable (going : state.ended = false) (first : state.pending = request :: rest)
include first

theorem answered_other (other : request.expect = none) :
    (state.answered request answer).Confirming := by
  refine ⟨fun going => ?_, confirming.answered_heard request answer⟩
  have before := confirming.expecting going
  simpa [State.answered, first, filterMap_cons, other] using before

include going

theorem answered_confirm (answer : Answer) (own : request.expect = some expected) :
    ((state.answered request answer).confirm expected answer).Confirming := by
  have before := confirming.expecting going
  simp only [first, filterMap_cons, own] at before
  have callers : request.caller = expected.caller := by
    cases request with
    | publish caller | revokeDevice caller =>
      cases own
      rfl
    | keyPackages caller | keyPackage user caller | lookup user caller => cases own
  refine ⟨fun _ => ?_, fun word mem => ?_⟩
  · simp [State.confirm, State.answered, before, first]
  rcases mem_append.mp mem with earlier | new
  · exact confirming.answered_heard request answer word earlier
  rw [← callers] at new
  exact mem_append.mpr (.inr new)

theorem head? (own : request.expect = some expected) : state.expecting.head? = some expected := by
  rw [confirming.expecting going, first, filterMap_cons, own, head?_cons]

/-- A refusal is taken for the publish or revocation that is refused, if one is. -/
theorem refused (published : state.published = true)
    (own : state.confirmsOwn (.answer (.error code message) pick) = true) :
    state.expecting.head?.filter Expect.awaited = request.expect := by
  simp only [State.confirmsOwn, first, head?_cons, published, Bool.not_true, Bool.false_or] at own
  cases request with
  | publish caller =>
    cases caller with
    | none => cases own
    | some caller =>
      rw [confirming.head? going first rfl]
      rfl
  | revokeDevice caller =>
    rw [confirming.head? going first rfl]
    rfl
  | keyPackages caller | keyPackage user caller | lookup user caller =>
    cases front : state.expecting.head? with
    | none => rfl
    | some => simpa [front, Option.filter, Request.expect] using own

theorem receiveError (own : state.confirmsOwn (.answer (.error code message) pick) = true)
    (answer : Answer) : ((state.answered request answer).receiveError answer pick).Confirming := by
  unfold State.receiveError
  split
  · exact ⟨nofun, confirming.answered_heard request answer⟩
  next notUnpublished =>
    have published : state.published = true := Bool.of_not_eq_false notUnpublished
    have taken : (state.answered request answer).expecting.head?.filter Expect.awaited =
        request.expect := confirming.refused going first published own
    rw [taken]
    split
    next own => exact confirming.answered_confirm going first answer own
    next other =>
      split
      · exact (confirming.answered_other first other).answerFetch pick answer
      · exact (confirming.answered_other first other).answerDeposit answer

/-- The answer to the first frame not answered yet keeps the confirmations right. -/
theorem receive (suits : answer.Suits request)
    (own : state.confirmsOwn (.answer answer pick) = true) :
    ((state.answered request answer).receive pick answer).Confirming := by
  cases suits with
  | @published _ expected kind =>
    have front : (state.answered request .published).expecting.head? = _ :=
      confirming.head? going first kind
    have result := confirming.answered_confirm going first .published kind
    simp only [State.receive, front]
    cases expected <;> exact { result with }
  | status => exact (confirming.answered_other first rfl).answerDeposit _
  | result => exact (confirming.answered_other first rfl).answerFetch _ _
  | looked => exact confirming.answered_other first rfl
  | error => exact confirming.receiveError going first own _

end Answered

theorem step (own : state.confirmsOwn move = true) (ran : state.step move = some after) :
    after.Confirming := by
  cases State.happened_of_step ran with
  | sent => exact confirming.send _
  | answered going first suits => exact confirming.receive going first suits own
  | closed => exact ⟨nofun, confirming.heard⟩

end

end State.Confirming

namespace State.Depositing

variable {state after : State}

theorem start : start.Depositing := by
  refine ⟨fun _ => rfl, fun _ => rfl, fun word mem => ?_⟩
  cases mem

section

variable (depositing : state.Depositing) (confirming : state.Confirming)
  (going : state.ended = false) (first : state.pending = request :: rest)
include depositing

theorem send (request : Request) : (state.send request).Depositing := by
  refine ⟨fun going => ?_, fun going => ?_, depositing.heard⟩
  · have before := depositing.deposits going
    cases kind : request.deposit <;> simp [State.send, before, kind]
  have before := depositing.fetches going
  cases kind : request.fetch <;> simp [State.send, before, kind]

theorem answered_heard (request : Request) (answer : Answer) :
    ∀ word ∈ state.packages, word ∈ (state.answered request answer).verdicts :=
  fun word mem => mem_append.mpr (.inl (depositing.heard word mem))

include first

theorem answered_other (answer : Answer) (notDeposit : request.deposit = none)
    (notFetch : request.fetch = none) : (state.answered request answer).Depositing := by
  refine ⟨fun going => ?_, fun going => ?_, depositing.answered_heard request answer⟩
  · have before := depositing.deposits going
    simpa [State.answered, first, filterMap_cons, notDeposit] using before
  have before := depositing.fetches going
  simpa [State.answered, first, filterMap_cons, notFetch] using before

theorem answered_expected (answer : Answer) (own : request.expect = some expected) :
    (state.answered request answer).Depositing := by
  cases request with
  | publish caller | revokeDevice caller => exact depositing.answered_other first answer rfl rfl
  | keyPackages caller | keyPackage user caller | lookup user caller => cases own

include going

theorem queues :
    state.deposits = request.deposit.toList ++ rest.filterMap Request.deposit ∧
      state.keyPackageReplies = request.fetch.toList ++ rest.filterMap Request.fetch := by
  rw [depositing.deposits going, depositing.fetches going, first, filterMap_cons, filterMap_cons]
  cases request <;> exact ⟨rfl, rfl⟩

omit first going in
/-- The caller told is the one whose frame was answered. -/
theorem told {packages : List Word} (own : request.caller = some caller) (answer : Answer)
    (told : packages = state.packages ++ [⟨caller, answer⟩]) :
    ∀ word ∈ packages, word ∈ (state.answered request answer).verdicts := by
  intro word mem
  rw [told] at mem
  rcases mem_append.mp mem with earlier | new
  · exact depositing.answered_heard request answer word earlier
  obtain rfl := mem_singleton.mp new
  simp [State.answered, own]

omit first in
theorem answered_deposit (answer : Answer) (first : state.pending = .keyPackages caller :: rest) :
    ((state.answered (.keyPackages caller) answer).answerDeposit answer).Depositing := by
  obtain ⟨deposits, fetches⟩ := depositing.queues going first
  have oldest : (state.answered (.keyPackages caller) answer).deposits =
      caller :: rest.filterMap Request.deposit := deposits
  unfold State.answerDeposit
  rw [oldest]
  refine ⟨fun _ => ?_, fun _ => ?_, depositing.told rfl answer rfl⟩
  · simp [State.answered, first]
  · simpa [State.answered, first, Request.fetch] using fetches

omit first in
theorem answered_fetch {user : String} (answer : Answer)
    (first : state.pending = .keyPackage user caller :: rest) :
    ((state.answered (.keyPackage user caller) answer).answerFetch user answer).Depositing := by
  obtain ⟨deposits, fetches⟩ := depositing.queues going first
  have oldest : (state.answered (.keyPackage user caller) answer).keyPackageReplies =
      (user, caller) :: rest.filterMap Request.fetch := fetches
  unfold State.answerFetch
  rw [oldest]
  simp only [decide_true, find?_cons_of_pos, eraseP_cons_of_pos]
  refine ⟨fun _ => ?_, fun _ => ?_, depositing.told rfl answer rfl⟩
  · simpa [State.answered, first, Request.deposit] using deposits
  · simp [State.answered, first]

/-- A refusal of a deposit, a fetch or a lookup is given to the one refused. -/
theorem answered_refused (published : state.published = true) (meets : state.meets pick)
    (answers : state.answersOwn (.answer (.error code message) pick) = true)
    (other : request.expect = none) (answer : Answer) :
    (if state.deposits = [] then (state.answered request answer).answerFetch pick answer
      else (state.answered request answer).answerDeposit answer).Depositing := by
  simp only [State.answersOwn, first, head?_cons, published, Bool.not_true,
    Bool.false_or] at answers
  obtain ⟨deposits, fetches⟩ := depositing.queues going first
  cases request with
  | publish caller | revokeDevice caller => cases other
  | keyPackages caller =>
    rw [if_neg (by simp [deposits, Request.deposit])]
    exact depositing.answered_deposit going answer first
  | keyPackage user caller =>
    simp only [Bool.and_eq_true, List.isEmpty_iff, List.all_eq_true, decide_eq_true_eq] at answers
    have same : pick = user := by
      rcases meets with empty | met
      · cases fetches.symm.trans empty
      obtain ⟨entry, mem, rfl⟩ := mem_map.mp met
      exact answers.2 entry mem
    rw [if_pos answers.1, same]
    exact depositing.answered_fetch going answer first
  | lookup user caller =>
    simp only [Bool.and_eq_true, List.isEmpty_iff] at answers
    rw [if_pos answers.1]
    have nobody : (state.answered (.lookup user caller) answer).answerFetch pick answer =
        state.answered (.lookup user caller) answer := by
      simp [State.answerFetch, State.answered, answers.2]
    rw [nobody]
    exact depositing.answered_other first _ rfl rfl

include confirming

theorem receiveError (meets : state.meets pick)
    (confirms : state.confirmsOwn (.answer (.error code message) pick) = true)
    (answers : state.answersOwn (.answer (.error code message) pick) = true) (answer : Answer) :
    ((state.answered request answer).receiveError answer pick).Depositing := by
  unfold State.receiveError
  split
  · exact ⟨nofun, nofun, depositing.answered_heard request answer⟩
  next notUnpublished =>
    have published : state.published = true := Bool.of_not_eq_false notUnpublished
    have taken : (state.answered request answer).expecting.head?.filter Expect.awaited =
        request.expect := confirming.refused going first published confirms
    rw [taken]
    split
    next own => exact { depositing.answered_expected first answer own with }
    next other => exact depositing.answered_refused going first published meets answers other answer

theorem receive (suits : answer.Suits request) (meets : state.meets pick)
    (confirms : state.confirmsOwn (.answer answer pick) = true)
    (answers : state.answersOwn (.answer answer pick) = true) :
    ((state.answered request answer).receive pick answer).Depositing := by
  cases suits with
  | published own =>
    have other := depositing.answered_expected first .published own
    unfold State.receive
    dsimp only
    split <;> exact { other with }
  | status => exact depositing.answered_deposit going _ first
  | result => exact depositing.answered_fetch going _ first
  | looked => exact depositing.answered_other first _ rfl rfl
  | error => exact depositing.receiveError confirming going first meets confirms answers _

omit going first in
theorem step (confirms : state.confirmsOwn move = true)
    (answers : state.answersOwn move = true) (ran : state.step move = some after) :
    after.Depositing := by
  cases State.happened_of_step ran with
  | sent => exact depositing.send _
  | answered going first suits meets =>
    exact depositing.receive confirming going first suits meets confirms answers
  | closed => exact ⟨nofun, nofun, depositing.heard⟩

end

end State.Depositing

def State.callers (state : State) : List Nat :=
  state.verdicts.map Word.caller ++ state.pending.filterMap Request.caller

/-- Every caller asks once. -/
structure State.Numbered (state : State) : Prop where
  once : state.callers.Nodup
  below : ∀ caller ∈ state.callers, caller < state.issued

namespace State.Numbered

variable {state after : State}

theorem start : start.Numbered :=
  ⟨nodup_nil, fun _ mem => (not_mem_nil mem).elim⟩

section

variable (numbered : state.Numbered)
include numbered

theorem same (callers : after.callers = state.callers) (issued : after.issued = state.issued) :
    after.Numbered := by
  constructor
  · rw [callers]
    exact numbered.once
  rw [callers, issued]
  exact numbered.below

theorem send (fresh : request.caller = none ∨ request.caller = some state.issued) :
    (state.send request).Numbered := by
  rcases fresh with nobody | caller
  · have callers : (state.send request).callers = state.callers := by
      simp [State.callers, State.send, nobody]
    refine ⟨by rw [callers]; exact numbered.once, fun other mem => ?_⟩
    rw [callers] at mem
    exact Nat.lt_succ_of_lt (numbered.below other mem)
  have callers : (state.send request).callers = state.callers ++ [state.issued] := by
    simp [State.callers, State.send, caller]
  constructor
  · rw [callers, nodup_append]
    refine ⟨numbered.once, by simp, fun other mem last found => ?_⟩
    have earlier := numbered.below other mem
    obtain rfl := mem_singleton.mp found
    omega
  intro other mem
  rw [callers] at mem
  rcases mem_append.mp mem with earlier | new
  · exact Nat.lt_succ_of_lt (numbered.below other earlier)
  obtain rfl := mem_singleton.mp new
  exact Nat.lt_succ_self _

theorem answered (answer : Answer) (first : state.pending = request :: rest) :
    (state.answered request answer).Numbered := by
  refine numbered.same ?_ rfl
  cases caller : request.caller <;>
    simp [State.callers, State.answered, first, caller]

theorem step (ran : state.step move = some after) : after.Numbered := by
  cases State.happened_of_step ran with
  | sent fresh => exact numbered.send fresh
  | @answered request _ answer pick _ first =>
    obtain ⟨pending, verdicts, issued⟩ := (state.answered request answer).receive_ledger pick answer
    refine (numbered.answered answer first).same ?_ issued
    rw [State.callers, verdicts, pending]
    rfl
  | closed => exact numbered.same rfl rfl

end

end State.Numbered

/-- Every caller's frame is answered at most once.  Where no refusal meets the queue of
publishes and revocations but their own, what their callers hear is the relay's answer to
their own frame; where none meets the deposits and fetches but their own either, so is
what the callers of those hear. -/
theorem confirmations_attributed {moves : List Move} {final : State}
    (confirms : EachState State.step (fun state move => state.confirmsOwn move = true) start moves)
    (ended : run State.step start moves = some final) :
    (final.verdicts.map Word.caller).Nodup ∧
    (∀ word ∈ final.confirmations, word ∈ final.verdicts) ∧
    (EachState State.step (fun state move => state.answersOwn move = true) start moves →
      ∀ word ∈ final.packages, word ∈ final.verdicts) := by
  have numberedStep : ∀ move state next, State.Numbered state ->
      State.step state move = some next -> State.Numbered next :=
    fun _ _ _ numbered stepped => numbered.step stepped
  have confirmingStep : ∀ move state next, State.Confirming state ->
      state.confirmsOwn move = true -> State.step state move = some next ->
      State.Confirming next :=
    fun _ _ _ confirming own stepped => confirming.step own stepped
  refine ⟨?_, ?_, fun answers => ?_⟩
  · have numbered := run_keeps State.Numbered.start numberedStep ended
    exact (nodup_append.mp numbered.once).1
  · exact (EachState.run_keeps confirms State.Confirming.start confirmingStep ended).heard
  have bothStep : ∀ move state next, State.Confirming state ∧ State.Depositing state ->
      state.confirmsOwn move = true ∧ state.answersOwn move = true ->
      State.step state move = some next -> State.Confirming next ∧ State.Depositing next :=
    fun _ _ _ ⟨confirming, depositing⟩ ⟨own, theirs⟩ stepped =>
      ⟨confirming.step own stepped, depositing.step confirming own theirs stepped⟩
  have both := EachState.run_keeps (confirms.and answers)
    ⟨State.Confirming.start, State.Depositing.start⟩ bothStep ended
  exact both.2.heard

def requests : List Move :=
  [.answer .published "", .republish true, .revokeDevice, .answer .published "",
    .answer (.error .forbidden "no") "", .keyPackages, .lookup "bob",
    .answer (.error .tooLarge "too many") "", .answer (.lookupResult "bob") "",
    .keyPackage "bob", .keyPackages, .answer (.keyPackageResult "bob" none false) "bob",
    .answer (.keyPackageStatus 3 []) "", .lookup "carol",
    .answer (.error .rateLimited "slow down") "", .keyPackage "carol",
    .answer (.error .notFound "nothing") "carol", .disconnect]

theorem requests_attributed : (run State.step start requests).any (fun final =>
      final.confirmations = [⟨0, .published⟩, ⟨1, .error .forbidden "no"⟩] &&
      final.packages.map Word.caller = [2, 4, 5, 7]) = true ∧
    ∀ final, run State.step start requests = some final → (final.verdicts.map Word.caller).Nodup ∧
      (∀ word ∈ final.confirmations, word ∈ final.verdicts) ∧
      (EachState State.step (fun state move => state.answersOwn move = true) start requests →
        ∀ word ∈ final.packages, word ∈ final.verdicts) ∧
      EachState State.step (fun state move => state.answersOwn move = true) start requests := by
  refine ⟨by decide +kernel, fun final ended => ?_⟩
  obtain ⟨once, confirmed, answered⟩ := confirmations_attributed (by decide +kernel) ended
  exact ⟨once, confirmed, answered, by decide +kernel⟩

/-- A deposit hears the refusal of a lookup, and a device revocation that of a lookup sent
before it, though the relay accepts both. -/
theorem refusal_of_another : (run State.step start
      [.answer .published "", .lookup "bob", .keyPackages,
        .answer (.error .rateLimited "slow down") ""]).any (fun final =>
        final.verdicts = [⟨0, .error .rateLimited "slow down"⟩] &&
        final.packages = [⟨1, .error .rateLimited "slow down"⟩]) = true ∧
    (run State.step start [.answer .published "", .lookup "bob", .revokeDevice,
        .answer (.error .rateLimited "slow down") "", .answer .published ""]).any (fun final =>
        final.verdicts = [⟨0, .error .rateLimited "slow down"⟩, ⟨1, .published⟩] &&
        final.confirmations = [⟨1, .error .rateLimited "slow down"⟩]) = true := by
  constructor
  · decide +kernel
  · decide +kernel

end Silver.Client.Connection.Confirmations
