import Mathlib

/-!
# Ledgers

Items on a list have a key, an owner and a size.  What an owner is charged for is how many
items are theirs and how much these take up; the total is what all items take up.  An item
that goes takes its charge with it.
-/

namespace Silver.Foundation.Ledger

open List

section Size

variable {Item : Type} (size : Item → Nat)

def total (items : List Item) : Nat :=
  (items.map size).sum

@[simp] theorem total_nil : total size [] = 0 := rfl

@[simp] theorem total_cons (item : Item) (items : List Item) :
    total size (item :: items) = size item + total size items := by
  simp [total]

@[simp] theorem total_append (items others : List Item) :
    total size (items ++ others) = total size items + total size others := by
  simp [total]

theorem total_perm {items others : List Item} (same : items.Perm others) :
    total size items = total size others :=
  (same.map size).sum_eq

end Size

section Charge

variable {Item Owner : Type} [DecidableEq Owner] (owner : Item → Owner) (size : Item → Nat)

def owned (items : List Item) (who : Owner) : List Item :=
  items.filter fun item => owner item = who

def charge (items : List Item) (who : Owner) : Nat × Nat :=
  ((owned owner items who).length, total size (owned owner items who))

@[simp] theorem charge_nil (who : Owner) : charge owner size [] who = (0, 0) := rfl

theorem charge_perm {items others : List Item} (same : items.Perm others) (who : Owner) :
    charge owner size items who = charge owner size others who := by
  have filtered := same.filter fun item => decide (owner item = who)
  exact Prod.ext filtered.length_eq (total_perm size filtered)

theorem charge_cons (item : Item) (items : List Item) (who : Owner) :
    charge owner size (item :: items) who = if owner item = who then
        ((charge owner size items who).1 + 1, size item + (charge owner size items who).2)
      else charge owner size items who := by
  unfold charge owned
  rw [filter_cons]
  split
  next own => simp [of_decide_eq_true own]
  next other => simp [of_decide_eq_false (eq_false_of_ne_true other)]

theorem total_eq_charge_add (items : List Item) (who : Owner) :
    total size items = (charge owner size items who).2 +
      total size (items.filter fun item => owner item ≠ who) := by
  have parts := filter_append_perm (fun item => decide (owner item = who)) items
  rw [← total_perm size parts, total_append]
  simp [charge, owned]

theorem charge_snd_le_total (items : List Item) (who : Owner) :
    (charge owner size items who).2 ≤ total size items := by
  rw [total_eq_charge_add owner size items who]
  omega

theorem charge_others (items : List Item) (who other : Owner) :
    charge owner size (items.filter fun item => owner item ≠ who) other =
      if other = who then (0, 0) else charge owner size items other := by
  have owners : owned owner (items.filter fun item => owner item ≠ who) other =
      if other = who then [] else owned owner items other := by
    unfold owned
    rw [filter_filter]
    split
    next same => simp [same]
    next apart =>
      refine filter_congr fun item _ => ?_
      by_cases own : owner item = other
      · simp [own, apart]
      · simp [own]
  unfold charge
  rw [owners]
  split
  · rfl
  · rfl

end Charge

section Key

variable [DecidableEq Key] {key : Item → Key}

theorem perm_cons_filter_key
    {items : List Item} {item : Item} (once : (items.map key).Nodup) (mem : item ∈ items) :
    items.Perm (item :: items.filter fun other => key other ≠ key item) := by
  induction items with
  | nil => cases mem
  | cons first rest ih =>
    rw [map_cons, nodup_cons] at once
    rcases mem_cons.mp mem with rfl | later
    · have others : rest.filter (fun other => key other ≠ key item) = rest := by
        refine filter_eq_self.mpr fun other listed => ?_
        have apart : key other ≠ key item :=
          fun same => once.1 (same ▸ mem_map_of_mem listed)
        simpa using apart
      rw [filter_cons_of_neg (by simp), others]
    have apart : key first ≠ key item :=
      fun same => once.1 (same ▸ mem_map_of_mem later)
    rw [filter_cons_of_pos (by simpa using apart)]
    exact ((ih once.2 later).cons first).trans (.swap item first _)

end Key

end Silver.Foundation.Ledger
