import Mathlib

/-!
# Distinct items and how often each occurs

A list with repetitions has so many distinct items, and each occurs so often.
-/

namespace Silver.Foundation

variable [DecidableEq α]

theorem nodup_eraseDups (items : List α) : items.eraseDups.Nodup := by
  induction length : items.length using Nat.strongRecOn generalizing items with
  | _ _ ih =>
    cases items with
    | nil => exact List.nodup_nil
    | cons item items =>
      rw [List.eraseDups_cons, List.nodup_cons]
      constructor
      · simp
      refine ih _ ?_ _ rfl
      have := List.length_filter_le (fun other => !other == item) items
      simp only [List.length_cons] at length
      omega

theorem length_eraseDups (items : List α) : items.eraseDups.length = items.toFinset.card := by
  rw [← List.toFinset_card_of_nodup (nodup_eraseDups items)]
  congr 1
  ext item
  simp

theorem length_eraseDups_le {items others : List α} (within : ∀ item ∈ items, item ∈ others) :
    items.eraseDups.length ≤ others.eraseDups.length := by
  rw [length_eraseDups, length_eraseDups]
  apply Finset.card_le_card
  intro item listed
  simpa using within item (by simpa using listed)

theorem length_le_of_count_le
    {items : List α} {bound : Nat} (few : ∀ item, items.count item ≤ bound) :
    items.length ≤ items.eraseDups.length * bound := by
  have total := List.sum_map_count_dedup_eq_length items
  have sameCount : items.dedup.length = items.eraseDups.length := by
    rw [length_eraseDups, List.card_toFinset]
  rw [← total, ← sameCount]
  have bounded := List.sum_le_card_nsmul (items.dedup.map items.count) bound
    (by
      intro count listed
      obtain ⟨item, -, rfl⟩ := List.mem_map.mp listed
      exact few item)
  simpa using bounded

end Silver.Foundation
