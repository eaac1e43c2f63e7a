import Mathlib

/-!
# Runs of a partial step function

A component that handles one input after another is a step function on its state; a step
that returns `none` is one it does not survive.  The step is folded over a list of inputs,
with induction rules for properties of the state alone and with the inputs so far.
-/

namespace Silver.Foundation

open List

def run (step : σ -> α -> Option σ) : σ -> List α -> Option σ
  | state, [] => some state
  | state, input :: inputs => (step state input).bind fun next => run step next inputs

section

variable (step : σ -> α -> Option σ) (state : σ)
include step state

@[simp] theorem run_nil : run step state [] = some state := rfl

@[simp] theorem run_cons (input : α) (inputs : List α) : run step state (input :: inputs) =
      (step state input).bind fun next => run step next inputs := rfl

theorem run_append (first second : List α) : run step state (first ++ second) =
      (run step state first).bind fun middle => run step middle second := by
  induction first generalizing state with
  | nil => rfl
  | cons input _ ih =>
    cases ran : step state input with
    | none => simp [ran]
    | some => simp [ran, ih]

theorem run_snoc (inputs : List α) (input : α) : run step state (inputs ++ [input]) =
      (run step state inputs).bind fun middle => step middle input := by
  rw [run_append]
  cases run step state inputs with
  | none => rfl
  | some middle => cases ran : step middle input <;> simp [ran]

end

theorem run_relates {step : σ -> α -> Option σ} {initial : σ} {relates : List α -> σ -> Prop}
    (start : relates [] initial)
    (extend : ∀ inputs input state next, relates inputs state ->
      step state input = some next -> relates (inputs ++ [input]) next)
    {inputs : List α} {final : σ} (ended : run step initial inputs = some final) :
    relates inputs final := by
  induction inputs using reverseRecOn generalizing final with
  | nil =>
    cases ended
    exact start
  | append_singleton inputs input ih =>
    rw [run_snoc] at ended
    obtain ⟨middle, reached, ran⟩ := Option.bind_eq_some_iff.mp ended
    exact extend inputs input middle final (ih reached) ran

theorem run_keeps {step : σ -> α -> Option σ} {initial : σ} {keeps : σ -> Prop} (start : keeps initial)
    (preserve : ∀ input state next, keeps state -> step state input = some next -> keeps next)
    {inputs : List α} {final : σ} (ended : run step initial inputs = some final) :
    keeps final := by
  let relates : List α -> σ -> Prop := fun _ => keeps
  have extend : ∀ inputs input state next, relates inputs state ->
      step state input = some next -> relates (inputs ++ [input]) next :=
    fun _ input state next holds ran => preserve input state next holds ran
  exact run_relates start extend ended

def Reached (step : σ -> α -> Option σ) (initial : σ) (inputs : List α) (state : σ) : Prop :=
  ∃ before, before <+: inputs ∧ run step initial before = some state

theorem reached_nil {step : σ -> α -> Option σ} {initial state : σ} :
    Reached step initial [] state ↔ state = initial := by
  constructor
  · rintro ⟨_, empty, reached⟩
    obtain rfl := prefix_nil.mp empty
    exact (Option.some.inj reached).symm
  rintro rfl
  exact ⟨[], prefix_rfl, rfl⟩

theorem reached_snoc
    {step : σ -> α -> Option σ} {initial last next state : σ} {inputs : List α} {input : α}
    (ended : run step initial inputs = some last) (ran : step last input = some next) :
    Reached step initial (inputs ++ [input]) state ↔
      Reached step initial inputs state ∨ state = next := by
  have whole : run step initial (inputs ++ [input]) = some next := by
    rw [run_snoc, ended, Option.bind_some, ran]
  constructor
  · rintro ⟨before, shorter, reached⟩
    rcases prefix_concat_iff.mp shorter with rfl | within
    · exact .inr (Option.some.inj (reached.symm.trans whole))
    · exact .inl ⟨before, within, reached⟩
  rintro (⟨before, within, reached⟩ | rfl)
  · exact ⟨before, within.trans (prefix_append _ _), reached⟩
  · exact ⟨_, prefix_rfl, whole⟩

theorem reached_start (step : σ -> α -> Option σ) (initial : σ) (inputs : List α) :
    Reached step initial inputs initial :=
  ⟨[], nil_prefix, rfl⟩

theorem Reached.cons
    {step : σ -> α -> Option σ} {initial next state : σ} {input : α} {inputs : List α}
    (ran : step initial input = some next) (reached : Reached step next inputs state) :
    Reached step initial (input :: inputs) state := by
  obtain ⟨before, shorter, ended⟩ := reached
  refine ⟨input :: before, cons_prefix_cons.mpr ⟨rfl, shorter⟩, ?_⟩
  rw [run_cons, ran, Option.bind_some, ended]

def EachStep (condition : List α -> α -> Prop) (inputs : List α) : Prop :=
  ∀ before input after, inputs = before ++ input :: after -> condition before input

theorem eachStep_nil (condition : List α -> α -> Prop) : EachStep condition [] := by
  intro _ _ _ split
  simp at split

theorem eachStep_snoc (condition : List α -> α -> Prop) (inputs : List α) (input : α) :
    EachStep condition (inputs ++ [input]) ↔
      EachStep condition inputs ∧ condition inputs input := by
  constructor
  · intro each
    refine ⟨fun before middle after split => ?_, each inputs input [] rfl⟩
    exact each before middle (after ++ [input]) (by simp [split])
  rintro ⟨each, last⟩ before middle after split
  induction after using reverseRecOn with
  | nil =>
    obtain ⟨rfl, headEquality⟩ := append_inj' split rfl
    simp only [cons.injEq, and_true] at headEquality
    exact headEquality ▸ last
  | append_singleton after =>
    rw [← cons_append, ← append_assoc] at split
    obtain ⟨initialEquality, -⟩ := append_inj' split rfl
    exact each before middle after initialEquality

theorem EachStep.of_append {condition : List α -> α -> Prop} {first second : List α}
    (each : EachStep condition (first ++ second)) :
    EachStep condition first := by
  intro before input after split
  exact each before input (after ++ second) (by simp [split])

def EachState (step : σ -> α -> Option σ) (condition : σ -> α -> Prop) : σ -> List α -> Prop
  | _, [] => True
  | state, input :: inputs =>
    condition state input ∧ match step state input with
      | none => True
      | some next => EachState step condition next inputs

instance EachState.decidable (step : σ -> α -> Option σ) (condition : σ -> α -> Prop)
    [∀ state input, Decidable (condition state input)] (state : σ) (inputs : List α) :
    Decidable (EachState step condition state inputs) :=
  match inputs with
  | [] => inferInstanceAs (Decidable True)
  | input :: inputs =>
    haveI : Decidable (match step state input with
        | none => True
        | some next => EachState step condition next inputs) :=
      match step state input with
      | none => inferInstanceAs (Decidable True)
      | some next => EachState.decidable step condition next inputs
    inferInstanceAs (Decidable (_ ∧ _))

theorem EachState.of_forall {step : σ -> α -> Option σ} {condition : α -> Prop} {inputs : List α}
    (each : ∀ input ∈ inputs, condition input) (state : σ) :
    EachState step (fun _ input => condition input) state inputs := by
  induction inputs generalizing state with
  | nil => trivial
  | cons input inputs ih =>
    refine ⟨each input (.head _), ?_⟩
    split
    · trivial
    next next _ => exact ih (fun other mem => each other (.tail _ mem)) next

theorem EachState.mono
    {step : σ -> α -> Option σ} {stronger weaker : σ -> α -> Prop} {state : σ} {inputs : List α}
    (implied : ∀ state input, stronger state input -> weaker state input)
    (each : EachState step stronger state inputs) :
    EachState step weaker state inputs := by
  induction inputs generalizing state with
  | nil => trivial
  | cons input inputs ih =>
    obtain ⟨met, later⟩ := each
    refine ⟨implied state input met, ?_⟩
    cases ran : step state input with
    | none => trivial
    | some =>
      rw [ran] at later
      exact ih later

theorem EachState.and
    {step : σ -> α -> Option σ} {first second : σ -> α -> Prop} {state : σ} {inputs : List α}
    (each : EachState step first state inputs) (other : EachState step second state inputs) :
    EachState step (fun state input => first state input ∧ second state input) state inputs := by
  induction inputs generalizing state with
  | nil => trivial
  | cons input inputs ih =>
    obtain ⟨met, later⟩ := each
    obtain ⟨otherMet, otherLater⟩ := other
    refine ⟨⟨met, otherMet⟩, ?_⟩
    cases ran : step state input with
    | none => trivial
    | some =>
      rw [ran] at later otherLater
      exact ih later otherLater

/-- Where a step keeps a property exactly under a condition, every state of a run has the
property exactly if every step meets the condition. -/
theorem EachState.iff_reached {step : σ -> α -> Option σ} {good : σ -> Prop}
    {condition : σ -> α -> Prop} {initial : σ} {inputs : List α} (start : good initial)
    (exactly : ∀ input ∈ inputs, ∀ state next, good state -> step state input = some next ->
      (good next ↔ condition state input))
    (ended : run step initial inputs = some final) :
    (∀ state, Reached step initial inputs state -> good state) ↔
      EachState step condition initial inputs := by
  induction inputs generalizing initial with
  | nil => simp [reached_nil, EachState, start]
  | cons input inputs ih =>
    obtain ⟨next, ran, ended⟩ := Option.bind_eq_some_iff.mp ended
    have first := exactly input (.head _) initial next start ran
    have rest := fun holds => ih holds
      (fun other mem => exactly other (.tail _ mem)) ended
    rw [EachState, ran, ← first]
    constructor
    · intro each
      have holds := each next (.cons ran (reached_start step next inputs))
      exact ⟨holds, (rest holds).mp fun state reached => each state (.cons ran reached)⟩
    rintro ⟨holds, later⟩ state ⟨before, shorter, reached⟩
    cases before with
    | nil =>
      cases reached
      exact start
    | cons _ tail =>
      obtain ⟨rfl, within⟩ := cons_prefix_cons.mp shorter
      rw [run_cons, ran, Option.bind_some] at reached
      exact (rest holds).mpr later state ⟨tail, within, reached⟩

section

variable {initial : σ} {inputs : List α} (each : EachState step condition initial inputs)
include each

theorem EachState.run_relates {relates : List α -> σ -> Prop} (start : relates [] initial)
    (extend : ∀ before input state next, relates before state -> condition state input ->
      step state input = some next -> relates (before ++ [input]) next)
    (ended : run step initial inputs = some final) :
    relates inputs final := by
  suffices general : ∀ before state, relates before state ->
      EachState step condition state inputs -> run step state inputs = some final ->
      relates (before ++ inputs) final from general [] initial start each ended
  clear each start ended
  induction inputs with
  | nil =>
    intro before state holds _ ended
    cases ended
    rwa [append_nil]
  | cons input inputs ih =>
    rintro before state holds ⟨met, later⟩ ended
    obtain ⟨next, ran, continued⟩ := Option.bind_eq_some_iff.mp ended
    rw [ran] at later
    have extended := extend before input state next holds met ran
    simpa using ih (before ++ [input]) next extended later continued

theorem EachState.run_keeps {keeps : σ -> Prop} (start : keeps initial)
    (preserve : ∀ input state next, keeps state -> condition state input ->
      step state input = some next -> keeps next)
    (ended : run step initial inputs = some final) :
    keeps final := by
  let relates : List α -> σ -> Prop := fun _ => keeps
  have extend : ∀ before input state next, relates before state -> condition state input ->
      step state input = some next -> relates (before ++ [input]) next :=
    fun _ input state next holds met ran => preserve input state next holds met ran
  exact EachState.run_relates each start extend ended

end

end Silver.Foundation
