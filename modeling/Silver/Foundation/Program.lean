import Mathlib

/-!
# Programs of steps that may fail

A program is a list of steps made one after another, up to the first that fails.
A rule for it is an invariant that knows which steps are left.
-/

namespace Silver.Foundation

variable {σ α ε : Type}

theorem foldlM_cons_eq_ok
    {step : σ -> α -> Except ε σ} {state final : σ} {first : α} {rest : List α} :
    (first :: rest).foldlM step state = .ok final ↔
      ∃ next, step state first = .ok next ∧ rest.foldlM step next = .ok final := by
  rw [List.foldlM_cons]
  cases ran : step state first with
  | error | ok next => simp [bind, Except.bind]

theorem foldlM_append_eq_ok {step : σ -> α -> Except ε σ} {state final : σ} {first second : List α} :
    (first ++ second).foldlM step state = .ok final ↔
      ∃ middle, first.foldlM step state = .ok middle ∧ second.foldlM step middle = .ok final := by
  rw [List.foldlM_append]
  cases ended : first.foldlM step state with
  | error | ok middle => simp [bind, Except.bind]

theorem foldlM_leads {step : σ -> α -> Except ε σ} {invariant : List α -> σ -> Prop}
    (preserve : ∀ first rest state next, invariant (first :: rest) state ->
      step state first = .ok next -> invariant rest next)
    {steps : List α} {state final : σ} (start : invariant steps state)
    (ended : steps.foldlM step state = .ok final) :
    invariant [] final := by
  induction steps generalizing state with
  | nil =>
    cases ended
    exact start
  | cons first rest ih =>
    obtain ⟨next, ran, continued⟩ := foldlM_cons_eq_ok.mp ended
    exact ih (preserve first rest state next start ran) continued

theorem foldlM_keeps {step : σ -> α -> Except ε σ} {keeps : σ -> Prop} {steps : List α}
    (preserve : ∀ input ∈ steps, ∀ state next, keeps state -> step state input = .ok next ->
      keeps next)
    {state final : σ} (start : keeps state) (ended : steps.foldlM step state = .ok final) :
    keeps final := by
  let invariant := fun rest state => rest ⊆ steps ∧ keeps state
  have extend : ∀ first rest state next, invariant (first :: rest) state ->
      step state first = .ok next -> invariant rest next := by
    rintro first rest state next ⟨within, holds⟩ ran
    obtain ⟨mem, later⟩ := List.cons_subset.mp within
    exact ⟨later, preserve first mem state next holds ran⟩
  exact (foldlM_leads extend ⟨List.Subset.refl _, start⟩ ended).2

def Passes (step : σ -> α -> Except ε σ) (safe : σ -> Prop) : List α -> σ -> σ -> Prop
  | [], state, final => state = final
  | first :: rest, state, final =>
    ∃ next, step state first = .ok next ∧ safe next ∧ Passes step safe rest next final

namespace Passes

theorem append
    {first second : List α} {state middle final : σ} (begun : Passes step safe first state middle)
    (ended : Passes step safe second middle final) :
    Passes step safe (first ++ second) state final := by
  induction first generalizing state with
  | nil =>
    cases begun
    exact ended
  | cons _ _ ih =>
    obtain ⟨next, ran, within, continued⟩ := begun
    exact ⟨next, ran, within, ih continued⟩

theorem foldlM_eq_ok
    {steps : List α} {state final : σ} (passes : Passes step safe steps state final) :
    steps.foldlM step state = .ok final := by
  induction steps generalizing state with
  | nil => exact congrArg Except.ok passes
  | cons _ _ ih =>
    obtain ⟨next, ran, _, continued⟩ := passes
    exact foldlM_cons_eq_ok.mpr ⟨next, ran, ih continued⟩

theorem mono {weaker : σ -> Prop} {steps : List α} {state final : σ}
    (implied : ∀ state, safe state -> weaker state) (passes : Passes step safe steps state final) :
    Passes step weaker steps state final := by
  induction steps generalizing state with
  | nil => exact passes
  | cons _ _ ih =>
    obtain ⟨next, ran, within, continued⟩ := passes
    exact ⟨next, ran, implied next within, ih continued⟩

theorem flatMap {β : Type} {parts : β -> List α} (invariant : List β -> σ -> Prop)
    (preserve : ∀ first rest state, invariant (first :: rest) state ->
      ∃ next, Passes step safe (parts first) state next ∧ invariant rest next)
    {inputs : List β} {state : σ} (start : invariant inputs state) :
    ∃ final, Passes step safe (inputs.flatMap parts) state final ∧ invariant [] final := by
  induction inputs generalizing state with
  | nil => exact ⟨state, rfl, start⟩
  | cons first rest ih =>
    obtain ⟨next, begun, kept⟩ := preserve first rest state start
    obtain ⟨final, passes, ended⟩ := ih kept
    refine ⟨final, ?_, ended⟩
    rw [List.flatMap_cons]
    exact begun.append passes

end Passes

end Silver.Foundation
