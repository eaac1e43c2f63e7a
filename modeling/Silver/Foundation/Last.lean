import Mathlib

/-!
# The last value of a kind

What a record of the latest entry of each kind holds after a list has been gone
through: the last value that one of its elements gives.
-/

namespace Silver.Foundation

def lastSome (select : α → Option β) (items : List α) : Option β :=
  (items.filterMap select).getLast?

@[simp] theorem lastSome_nil : lastSome select [] = none :=
  rfl

theorem lastSome_snoc :
    lastSome select (items ++ [item]) = (select item).or (lastSome select items) := by
  cases given : select item <;> simp [lastSome, List.filterMap_append, given]

theorem lastSome_snoc_some (given : select item = some value) :
    lastSome select (items ++ [item]) = some value := by
  rw [lastSome_snoc, given, Option.some_or]

theorem lastSome_snoc_none (nothing : select item = none) :
    lastSome select (items ++ [item]) = lastSome select items := by
  rw [lastSome_snoc, nothing, Option.none_or]

theorem lastSome_append {others : List α} :
    lastSome select (items ++ others) = (lastSome select others).or (lastSome select items) := by
  simp [lastSome, List.filterMap_append, List.getLast?_append]

theorem lastSome_of_map {others : List γ} (change : γ → α) :
    lastSome select (others.map change) = lastSome (fun other => select (change other)) others := by
  simp [lastSome, List.filterMap_map]

theorem lastSome_eq_none : lastSome select items = none ↔ ∀ item ∈ items, select item = none := by
  simp [lastSome]

theorem lastSome_mem (found : lastSome select items = some value) :
    ∃ item ∈ items, select item = some value := by
  have mem := List.mem_of_getLast? found
  exact List.mem_filterMap.mp mem

theorem lastSome_map (change : β → γ) :
    (lastSome select items).map change = lastSome (fun item => (select item).map change) items := by
  rw [lastSome, lastSome, ← List.getLast?_map, List.map_filterMap]

theorem lastSome_bind_of_some
    {further : β → Option γ} {more : γ} (found : lastSome select items = some value)
    (gives : further value = some more) :
    lastSome (fun item => (select item).bind further) items = some more := by
  induction items using List.reverseRecOn with
  | nil => cases found
  | append_singleton _ item ih =>
    cases given : select item with
    | none =>
      rw [lastSome_snoc_none given] at found
      rw [lastSome_snoc_none (by rw [given, Option.bind_none])]
      exact ih found
    | some =>
      rw [lastSome_snoc_some given] at found
      cases found
      exact lastSome_snoc_some (by rw [given, Option.bind_some, gives])

theorem lastSome_bind_of_none {further : β → Option γ} (nothing : lastSome select items = none) :
    lastSome (fun item => (select item).bind further) items = none := by
  rw [lastSome_eq_none] at nothing ⊢
  intro item mem
  rw [nothing item mem, Option.bind_none]

theorem lastSome_eq_of_forall₂
    {relation : α → γ → Prop} {others : List γ} {selectOther : γ → Option β}
    (corresponds : List.Forall₂ relation items others)
    (together : ∀ item other, relation item other → select item = selectOther other) :
    lastSome select items = lastSome selectOther others := by
  have same : items.filterMap select = others.filterMap selectOther := by
    induction corresponds with
    | nil => rfl
    | @cons item other _ _ related _ ih =>
      simp only [List.filterMap_cons, together item other related, ih]
  rw [lastSome, same, lastSome]

end Silver.Foundation
