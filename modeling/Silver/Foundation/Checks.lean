import Mathlib

/-!
# Chains of checks

A validation is a chain of steps, each of which may refuse.  This module has the
steps such a chain is made of and says when the whole of it passes.
-/

namespace Silver.Foundation

def refuseIf (condition : Bool) (refusal : ε) : Except ε Unit :=
  if condition then .error refusal else .ok ()

@[simp] theorem refuseIf_eq_ok {condition : Bool} {refusal : ε} {result : Unit} :
    refuseIf condition refusal = .ok result ↔ condition = false := by
  cases condition <;> simp [refuseIf]

theorem bind_eq_ok {first : Except ε α} {next : α → Except ε β} {result : β} :
    (first >>= next) = .ok result ↔ ∃ given, first = .ok given ∧ next given = .ok result := by
  cases first with
  | error | ok given => simp [bind, Except.bind]

theorem refuseIf_bind_eq_ok
    {condition : Bool} {refusal : ε} {next : Unit → Except ε β} {result : β} :
    (refuseIf condition refusal >>= next) = .ok result ↔
      condition = false ∧ next () = .ok result := by
  rw [bind_eq_ok]
  constructor
  · rintro ⟨_, passed, rest⟩
    exact ⟨refuseIf_eq_ok.mp passed, rest⟩
  rintro ⟨passed, rest⟩
  exact ⟨(), refuseIf_eq_ok.mpr passed, rest⟩

@[simp] theorem mapError_eq_ok {value : Except ε α} {reword : ε → δ} {result : α} :
    value.mapError reword = .ok result ↔ value = .ok result := by
  cases value <;> simp [Except.mapError]

theorem mapM_eq_ok {check : α → Except ε β} {items : List α} {results : List β} :
    items.mapM check = .ok results ↔
      List.Forall₂ (fun item result => check item = .ok result) items results := by
  induction items generalizing results with
  | nil =>
    rw [List.mapM_nil]
    cases results <;> simp [pure, Except.pure]
  | cons item items ih =>
    rw [List.mapM_cons, bind_eq_ok]
    constructor
    · rintro ⟨_, checked, rest⟩
      obtain ⟨_, checkedRest, same⟩ := bind_eq_ok.mp rest
      cases same
      exact .cons checked (ih.mp checkedRest)
    rintro (_ | ⟨checked, rest⟩)
    exact ⟨_, checked, bind_eq_ok.mpr ⟨_, ih.mpr rest, rfl⟩⟩

theorem forM_eq_ok {check : α → Except ε Unit} {items : List α} {result : Unit} :
    items.forM check = .ok result ↔ ∀ item ∈ items, check item = .ok () := by
  induction items with
  | nil => simp [List.forM, pure, Except.pure]
  | cons item items ih =>
    have unfolded : (item :: items).forM check = (check item >>= fun _ => items.forM check) :=
      rfl
    rw [unfolded, bind_eq_ok, List.forall_mem_cons]
    constructor
    · rintro ⟨_, checked, rest⟩
      exact ⟨checked, ih.mp rest⟩
    rintro ⟨checked, rest⟩
    exact ⟨(), checked, ih.mpr rest⟩

section Pairs

variable {items : List α} {results : List β}

theorem exists_of_mem_left
    (pairs : List.Forall₂ related items results) {item : α} (listed : item ∈ items) :
    ∃ result ∈ results, related item result := by
  induction pairs with
  | nil => cases listed
  | cons pair _ ih =>
    rcases List.mem_cons.mp listed with rfl | later
    · exact ⟨_, .head _, pair⟩
    obtain ⟨result, found, paired⟩ := ih later
    exact ⟨result, .tail _ found, paired⟩

theorem exists_of_mem_right
    (pairs : List.Forall₂ related items results) {result : β} (listed : result ∈ results) :
    ∃ item ∈ items, related item result :=
  exists_of_mem_left (List.Forall₂.flip pairs) listed

theorem exists_forall₂ (each : ∀ item ∈ items, ∃ result, related item result) :
    ∃ results, List.Forall₂ related items results := by
  induction items with
  | nil => exact ⟨[], .nil⟩
  | cons item items ih =>
    obtain ⟨result, pair⟩ := each item (.head _)
    obtain ⟨rest, pairs⟩ := ih fun other listed => each other (.tail _ listed)
    exact ⟨result :: rest, .cons pair pairs⟩

end Pairs

end Silver.Foundation
