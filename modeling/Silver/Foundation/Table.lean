import Mathlib

/-!
# Keyed tables

A table of a key-value store, read as the partial function it holds.
-/

namespace Silver.Foundation

def Table (Key Value : Type) : Type :=
  Key → Option Value

namespace Table

def empty : Table Key Value :=
  fun _ => none

def get (table : Table Key Value) (key : Key) : Option Value :=
  table key

def insert [DecidableEq Key] (table : Table Key Value) (key : Key) (value : Value) :
    Table Key Value :=
  fun other => if other = key then some value else table other

def remove [DecidableEq Key] (table : Table Key Value) (key : Key) : Table Key Value :=
  fun other => if other = key then none else table other

def map (table : Table Key Value) (change : Value → Value) : Table Key Value :=
  fun key => (table key).map change

def filter (table : Table Key Value) (test : Value → Bool) : Table Key Value :=
  fun key => (table key).filter test

def ofRows [DecidableEq Key] (key : Value → Key) (rows : List Value) : Table Key Value :=
  rows.foldl (fun table row => table.insert (key row) row) empty

@[simp] theorem get_map (table : Table Key Value) (change : Value → Value) (key : Key) :
    (table.map change).get key = (table.get key).map change :=
  rfl

@[simp] theorem get_filter (table : Table Key Value) (test : Value → Bool) (key : Key) :
    (table.filter test).get key = (table.get key).filter test :=
  rfl

@[simp] theorem get_empty (key : Key) : (empty : Table Key Value).get key = none :=
  rfl

variable [DecidableEq Key]

section

variable (table : Table Key Value)

theorem get_insert (key other : Key) (value : Value) :
    (table.insert key value).get other = if other = key then some value else table.get other :=
  rfl

theorem get_remove (key other : Key) :
    (table.remove key).get other = if other = key then none else table.get other :=
  rfl

@[simp] theorem get_insert_self (key : Key) (value : Value) :
    (table.insert key value).get key = some value := by
  simp [get_insert]

@[simp] theorem get_remove_self (key : Key) : (table.remove key).get key = none := by
  simp [get_remove]

end

theorem get_insert_of_ne
    {table : Table Key Value} {key other : Key} {value : Value} (apart : other ≠ key) :
    (table.insert key value).get other = table.get other := by
  simp [get_insert, apart]

theorem get_insert_eq_some {table : Table Key Value} {key other : Key} {value found : Value}
    (held : (table.insert key value).get other = some found) :
    other = key ∧ found = value ∨ other ≠ key ∧ table.get other = some found := by
  grind [get_insert]

theorem get_remove_of_ne {table : Table Key Value} {key other : Key} (apart : other ≠ key) :
    (table.remove key).get other = table.get other := by
  simp [get_remove, apart]

end Table

end Silver.Foundation
