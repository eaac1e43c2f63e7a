import Silver.Foundation.Run

/-!
# Calls made of transactions

A call on a shared store is made of transactions, each of which reads or writes the store
in one piece; what it does next may depend on what it read.  Several calls under way take
turns, one transaction at a time in any order.
-/

namespace Silver.Foundation

/-- A call: what is left to do of it, or how it ended.  What comes after a transaction may
depend on the store the transaction found. -/
inductive Call (σ ε : Type) where
  | fail (why : ε)
  | done
  | read (next : σ -> Call σ ε)
  | write (change : σ -> σ) (next : σ -> Call σ ε)

namespace Call

variable {next : Call σ ε}

def check (refusal : σ -> Option ε) (next : Call σ ε) : Call σ ε :=
  .read fun state => (refusal state).elim next .fail

def run : Call σ ε -> σ -> Except ε σ
  | .fail why, _ => .error why
  | .done, state => .ok state
  | .read next, state => (next state).run state
  | .write change next, state => (next state).run (change state)

@[simp] theorem run_fail (why : ε) (state : σ) : (Call.fail why).run state = .error why := rfl

@[simp] theorem run_done (state : σ) : (Call.done : Call σ ε).run state = .ok state := rfl

@[simp] theorem run_read (next : σ -> Call σ ε) (state : σ) :
    (Call.read next).run state = (next state).run state := rfl

@[simp] theorem run_write (change : σ -> σ) (next : σ -> Call σ ε) (state : σ) :
    (Call.write change next).run state = (next state).run (change state) := rfl

theorem run_check (refusal : σ -> Option ε) (next : Call σ ε) (state : σ) :
    (check refusal next).run state = (refusal state).elim (next.run state) .error := by
  show ((refusal state).elim next Call.fail).run state = _
  cases refusal state with
  | none | some => rfl

theorem run_check_eq_ok {state final : σ} : (check refusal next).run state = .ok final ↔
      refusal state = none ∧ next.run state = .ok final := by
  rw [run_check]
  cases refusal state with
  | none | some => simp

def ended : Call σ ε -> Bool
  | .fail _ | .done => true
  | .read _ | .write _ _ => false

def advance : Call σ ε -> σ -> Call σ ε × σ
  | .fail why, state => (.fail why, state)
  | .done, state => (.done, state)
  | .read next, state => (next state, state)
  | .write change next, state => (next state, change state)

def Harmless (safe : σ -> Prop) (keeps : σ -> σ -> Prop) : Call σ ε -> Prop
  | .fail _ | .done => True
  | .read next => ∀ state, safe state -> (next state).Harmless safe keeps
  | .write change next => ∀ state, safe state ->
      keeps state (change state) ∧ (next state).Harmless safe keeps

theorem Harmless.check_refused (refused : ∀ state, safe state -> (refusal state).isSome = true) :
    (check refusal next).Harmless safe keeps := by
  intro state holds
  obtain ⟨_, found⟩ := Option.isSome_iff_exists.mp (refused state holds)
  show ((refusal state).elim next Call.fail).Harmless safe keeps
  rw [found]
  trivial

theorem Harmless.check (harmless : next.Harmless safe keeps) :
    (check refusal next).Harmless safe keeps := by
  intro state _
  show ((refusal state).elim next Call.fail).Harmless safe keeps
  cases refusal state with
  | none => exact harmless
  | some => trivial

theorem Harmless.advance {call : Call σ ε} {state : σ} (refl : ∀ state, keeps state state)
    (harmless : call.Harmless safe keeps) (holds : safe state) :
    (call.advance state).1.Harmless safe keeps ∧ keeps state (call.advance state).2 := by
  cases call with
  | fail | done => exact ⟨trivial, refl state⟩
  | read next => exact ⟨harmless state holds, refl state⟩
  | write _ next => exact (harmless state holds).symm

end Call

/-- A store and the calls on it, ended or under way, each with the request it is for. -/
structure Calls (σ ε Request : Type) where
  store : σ
  calls : List (Request × Call σ ε)

/-- A call begins, or a call under way makes one transaction. -/
inductive Turn (Request : Type) where
  | start (request : Request)
  | advance (index : Nat)
deriving DecidableEq

namespace Calls

variable {σ ε Request : Type} {state next : Calls σ ε Request}

def step (make : Request -> Call σ ε) (state : Calls σ ε Request) :
    Turn Request -> Option (Calls σ ε Request)
  | .start request => some { state with calls := state.calls ++ [(request, make request)] }
  | .advance index =>
    (state.calls[index]?).map fun (request, call) =>
      ⟨(call.advance state.store).2, state.calls.set index (request, (call.advance state.store).1)⟩

def Harmless (which : Nat -> Request -> Prop) (safe : σ -> Prop) (keeps : σ -> σ -> Prop)
    (state : Calls σ ε Request) : Prop :=
  ∀ index request call, which index request -> state.calls[index]? = some (request, call) ->
    call.Harmless safe keeps

theorem Harmless.step
    {which : Nat -> Request -> Prop} {safe : σ -> Prop} {keeps : σ -> σ -> Prop} {turn : Turn Request}
    (refl : ∀ state, keeps state state)
    (begins : ∀ request, which state.calls.length request -> (make request).Harmless safe keeps)
    (harmless : state.Harmless which safe keeps) (holds : safe state.store)
    (ran : state.step make turn = some next) :
    next.Harmless which safe keeps ∧ ((∀ index request call, turn = .advance index ->
        state.calls[index]? = some (request, call) -> which index request) ->
      keeps state.store next.store) := by
  cases turn with
  | start request =>
    cases ran
    refine ⟨fun index asked call chosen found => ?_, fun _ => refl _⟩
    by_cases old : index < state.calls.length
    · rw [List.getElem?_append_left old] at found
      exact harmless index asked call chosen found
    rw [List.getElem?_append_right (by omega)] at found
    have last : index = state.calls.length := by
      have inside := (List.getElem?_eq_some_iff.mp found).1
      rw [List.length_singleton] at inside
      omega
    obtain ⟨rfl, rfl⟩ := Prod.mk.inj (List.mem_singleton.mp (List.mem_of_getElem? found))
    exact begins asked (last ▸ chosen)
  | advance index =>
    obtain ⟨⟨request, call⟩, there, rfl⟩ := Option.map_eq_some_iff.mp ran
    constructor
    · intro other asked left chosen found
      by_cases same : index = other
      · subst same
        have inside := (List.getElem?_eq_some_iff.mp there).1
        rw [List.getElem?_set_self inside] at found
        cases found
        exact ((harmless index request call chosen there).advance refl holds).1
      rw [List.getElem?_set_ne same] at found
      exact harmless other asked left chosen found
    intro chosen
    have own := harmless index request call (chosen index request call rfl there) there
    exact (own.advance refl holds).2

end Calls

end Silver.Foundation
