import Mathlib

/-!
# Tables that are read through

A table whose rows are gone through one after another is Mathlib's association list, at one
type of values.  A sweep collects rows that pass a test and then writes or erases what it
collected; a count over the rows is the number of keys the table holds such a value under.
-/

namespace Silver.Foundation

open List

abbrev Rows (Key Value : Type) : Type :=
  AList fun _ : Key => Value

namespace Rows

variable {Key Value : Type} [DecidableEq Key]

def collect (rows : Rows Key Value) (test : Value → Bool) : List (Sigma fun _ : Key => Value) :=
  rows.entries.filter fun row => test row.2

def putEach (rows : Rows Key Value) (change : Value → Value)
    (collected : List (Sigma fun _ : Key => Value)) : Rows Key Value :=
  collected.foldl (fun table row => table.insert row.1 (change row.2)) rows

def eraseEach (rows : Rows Key Value) (collected : List (Sigma fun _ : Key => Value)) :
    Rows Key Value :=
  collected.foldl (fun table row => table.erase row.1) rows

theorem mem_collect {rows : Rows Key Value} {test : Value → Bool} {key : Key} {value : Value} :
    ⟨key, value⟩ ∈ rows.collect test ↔ rows.lookup key = some value ∧ test value = true := by
  rw [collect, mem_filter, ← AList.mem_lookup_iff, Option.mem_def]

omit [DecidableEq Key] in
theorem distinct_collect (rows : Rows Key Value) (test : Value → Bool) :
    ((rows.collect test).map Sigma.fst).Nodup :=
  rows.keys_nodup.sublist (filter_sublist.map Sigma.fst)

theorem lookup_eraseEach
    (rows : Rows Key Value) (collected : List (Sigma fun _ : Key => Value)) (key : Key) :
    (rows.eraseEach collected).lookup key =
      if key ∈ collected.map Sigma.fst then none else rows.lookup key := by
  induction collected generalizing rows with
  | nil => rfl
  | cons row collected ih =>
    rw [eraseEach, foldl_cons, ← eraseEach, ih]
    by_cases later : key ∈ collected.map Sigma.fst
    · simp [later]
    by_cases same : key = row.1
    · subst same
      simp
    · simp [later, same, AList.lookup_erase_ne same]

theorem lookup_putEach_of_notMem {rows : Rows Key Value} {change : Value → Value}
    {collected : List (Sigma fun _ : Key => Value)} {key : Key}
    (other : key ∉ collected.map Sigma.fst) :
    (rows.putEach change collected).lookup key = rows.lookup key := by
  induction collected generalizing rows with
  | nil => rfl
  | cons _ collected ih =>
    rw [map_cons, mem_cons, not_or] at other
    rw [putEach, foldl_cons, ← putEach, ih other.2, AList.lookup_insert_ne other.1]

theorem lookup_putEach_of_mem {rows : Rows Key Value} {change : Value → Value}
    {collected : List (Sigma fun _ : Key => Value)} {key : Key} {value : Value}
    (distinct : (collected.map Sigma.fst).Nodup) (mem : ⟨key, value⟩ ∈ collected) :
    (rows.putEach change collected).lookup key = some (change value) := by
  induction collected generalizing rows with
  | nil => cases mem
  | cons _ collected ih =>
    rw [map_cons, nodup_cons] at distinct
    rw [putEach, foldl_cons, ← putEach]
    rcases mem_cons.mp mem with rfl | later
    · rw [lookup_putEach_of_notMem distinct.1, AList.lookup_insert]
    · exact ih distinct.2 later

theorem mem_keys_collect {rows : Rows Key Value} {test : Value → Bool} {key : Key} :
    key ∈ (rows.collect test).map Sigma.fst ↔ (rows.lookup key).any test = true := by
  rw [mem_map, Option.any_eq_true]
  constructor
  · rintro ⟨⟨_, value⟩, mem, rfl⟩
    exact ⟨value, mem_collect.mp mem⟩
  rintro ⟨value, held⟩
  exact ⟨⟨key, value⟩, mem_collect.mpr held, rfl⟩

theorem lookup_putEach_collect
    (rows : Rows Key Value) (change : Value → Value) (test : Value → Bool) (key : Key) :
    (rows.putEach change (rows.collect test)).lookup key =
      (rows.lookup key).map fun value => if test value then change value else value := by
  by_cases passes : (rows.lookup key).any test = true
  · obtain ⟨value, held, tested⟩ := (Option.any_eq_true _ _).mp passes
    rw [lookup_putEach_of_mem (distinct_collect rows test) (mem_collect.mpr ⟨held, tested⟩), held]
    simp [tested]
  rw [lookup_putEach_of_notMem (mt mem_keys_collect.mp passes)]
  cases held : rows.lookup key with
  | none => rfl
  | some value =>
    rw [held, Option.any_some] at passes
    simp [passes]

theorem length_collect (rows : Rows Key Value) (test : Value → Bool) : (rows.collect test).length =
      {key | (rows.lookup key).any test = true}.ncard := by
  have keys : {key | (rows.lookup key).any test = true} =
      ((rows.collect test).map Sigma.fst).toFinset := by
    ext key
    rw [Finset.mem_coe, mem_toFinset, mem_keys_collect]
    rfl
  rw [keys, Set.ncard_coe_finset, toFinset_card_of_nodup (distinct_collect rows test), length_map]

end Rows

end Silver.Foundation
