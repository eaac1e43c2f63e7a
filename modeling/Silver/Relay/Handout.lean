import Silver.Foundation.Stretch
import Silver.Relay.Deposit

/-!
# Keys handed out once

A relay that replaces a deposit by one list after another, and hands keys out in between, hands
each id out once, provided that the lists keep to stretches: an id the user has taken off its
list is never on a later one.
-/

namespace Silver.Relay.Deposit

open Foundation List
open Prod (fst)

variable {deposit : Deposit Key} {keys : List (Nat × Key)}
  {id : Nat}

def ids (deposit : Deposit Key) : List Nat :=
  deposit.held.map fst

@[simp] theorem used_add (deposit : Deposit Key) (entry : Nat × Key) :
    (deposit.add entry).used = deposit.used := by
  unfold add
  split
  · rfl
  · rfl

theorem ids_add (deposit : Deposit Key) (entry : Nat × Key) :
    (deposit.add entry).ids = deposit.ids ∨ entry.1 ∉ deposit.used ∧ entry.1 ∉ deposit.ids ∧
        (deposit.add entry).ids.Perm (entry.1 :: deposit.ids) := by
  unfold add
  split
  · exact .inl rfl
  next free =>
    rw [not_or] at free
    exact .inr ⟨free.1, free.2, (perm_orderedInsert _ _ _).map fst⟩

@[simp] theorem used_foldl_add (keys : List (Nat × Key)) (deposit : Deposit Key) :
    (keys.foldl add deposit).used = deposit.used := by
  induction keys generalizing deposit with
  | nil => rfl
  | cons _ keys ih => rw [foldl_cons, ih, used_add]

theorem nodup_add (distinct : deposit.ids.Nodup) (entry : Nat × Key) :
    (deposit.add entry).ids.Nodup := by
  rcases deposit.ids_add entry with same | ⟨_, new, perm⟩
  · rw [same]
    exact distinct
  · exact perm.nodup_iff.mpr (nodup_cons.mpr ⟨new, distinct⟩)

theorem mem_ids_add (mem : id ∈ (deposit.add entry).ids) :
    id ∈ deposit.ids ∨ id = entry.1 ∧ id ∉ deposit.used := by
  rcases deposit.ids_add entry with same | ⟨unused, _, perm⟩
  · exact .inl (same ▸ mem)
  rcases mem_cons.mp (perm.subset mem) with rfl | old
  · exact .inr ⟨rfl, unused⟩
  · exact .inl old

theorem nodup_foldl_add (distinct : deposit.ids.Nodup) (keys : List (Nat × Key)) :
    (keys.foldl add deposit).ids.Nodup := by
  induction keys generalizing deposit with
  | nil => exact distinct
  | cons entry keys ih => exact ih (nodup_add distinct entry)

theorem mem_ids_foldl_add (mem : id ∈ (keys.foldl add deposit).ids) :
    id ∈ deposit.ids ∨ id ∈ keys.map fst ∧ id ∉ deposit.used := by
  induction keys generalizing deposit with
  | nil => exact .inl mem
  | cons _ keys ih =>
    rcases ih mem with early | ⟨later, unused⟩
    · rcases mem_ids_add early with old | ⟨rfl, unused⟩
      · exact .inl old
      · exact .inr ⟨.head _, unused⟩
    rw [used_add] at unused
    exact .inr ⟨.tail _ later, unused⟩

theorem mem_used_replace :
    id ∈ (deposit.replace keys).used ↔ id ∈ deposit.used ∧ id ∈ keys.map fst := by
  rw [replace, used_foldl_add, forget, mem_filter, decide_eq_true_eq]

theorem nodup_replace (distinct : deposit.ids.Nodup) (keys : List (Nat × Key)) :
    (deposit.replace keys).ids.Nodup := by
  have kept : (deposit.forget (keys.map fst)).ids.Nodup := distinct.sublist (filter_sublist.map fst)
  exact nodup_foldl_add kept keys

theorem mem_ids_replace (mem : id ∈ (deposit.replace keys).ids) : id ∈ keys.map fst ∧
      (id ∈ deposit.ids ∨ id ∉ (deposit.replace keys).used) := by
  rcases mem_ids_foldl_add mem with old | ⟨listed, unused⟩
  · obtain ⟨_, kept, rfl⟩ := mem_map.mp old
    obtain ⟨held, listed⟩ := mem_filter.mp kept
    exact ⟨of_decide_eq_true listed, .inl (mem_map_of_mem held)⟩
  refine ⟨listed, .inr ?_⟩
  rw [replace, used_foldl_add]
  exact unused

/-- What was handed out, in an account of the lists the deposit was replaced by. -/
structure Once (lists : List (List Nat)) (deposit : Deposit Key) (served : List Nat) : Prop where
  distinct : deposit.ids.Nodup
  served_nodup : served.Nodup
  apart : ∀ id ∈ served, id ∉ deposit.ids
  listed : ∀ id ∈ deposit.ids, ∃ list ∈ lists, id ∈ list
  known : ∀ id ∈ served, ∃ list ∈ lists, id ∈ list
  used : ∀ earlier last, lists = earlier ++ [last] → ∀ id ∈ served, id ∈ last → id ∈ deposit.used

theorem Once.empty : Once [] (Deposit.empty : Deposit Key) [] where
  distinct := nodup_nil
  served_nodup := nodup_nil
  apart := fun _ mem => absurd mem not_mem_nil
  listed := fun _ mem => absurd mem not_mem_nil
  known := fun _ mem => absurd mem not_mem_nil
  used := fun _ _ _ _ mem => absurd mem not_mem_nil

section Run

section

variable (once : Once lists deposit served) (stretch : Stretch (lists ++ [keys.map fst]))
include once stretch

theorem Once.used_of_listed (handedOut : id ∈ served) (again : id ∈ keys.map fst) :
    id ∈ deposit.used := by
  obtain ⟨list, mem, inList⟩ := once.known id handedOut
  obtain ⟨earlier, last, rfl⟩ := (eq_nil_or_concat lists).resolve_left (ne_nil_of_mem mem)
  rw [concat_eq_append] at *
  exact once.used earlier last rfl id handedOut (stretch.mem_last ⟨list, mem, inList⟩ again)

theorem Once.replace :
    Once (lists ++ [keys.map fst]) (deposit.replace keys) served where
  distinct := nodup_replace once.distinct keys
  served_nodup := once.served_nodup
  apart := by
    intro id handedOut mem
    obtain ⟨again, old | unused⟩ := mem_ids_replace mem
    · exact once.apart id handedOut old
    exact unused (mem_used_replace.mpr ⟨once.used_of_listed stretch handedOut again, again⟩)
  listed := by
    intro id mem
    exact ⟨_, mem_append_right _ (mem_singleton_self _), (mem_ids_replace mem).1⟩
  known := by
    intro id handedOut
    obtain ⟨list, mem, inList⟩ := once.known id handedOut
    exact ⟨list, mem_append_left _ mem, inList⟩
  used := by
    intro _ _ split id handedOut again
    obtain ⟨_, same⟩ := append_inj' split rfl
    obtain rfl := singleton_injective same
    exact mem_used_replace.mpr ⟨once.used_of_listed stretch handedOut again, again⟩

end

theorem Once.take (once : Once lists deposit served) {next : Deposit Key}
    (taken : deposit.take = (some entry, next)) :
    Once lists next (served ++ [entry.1]) := by
  unfold Deposit.take at taken
  split at taken
  next => cases taken
  next first rest held =>
    obtain ⟨same, rfl⟩ := Prod.mk.inj taken
    obtain rfl := Option.some.inj same
    have inDeposit : first.1 ∈ deposit.ids := by
      rw [ids, held]
      exact .head _
    have others : ∀ id ∈ rest.map fst, id ∈ deposit.ids := by
      intro id mem
      rw [ids, held]
      exact .tail _ mem
    have distinct := once.distinct
    rw [ids, held, map_cons, nodup_cons] at distinct
    refine ⟨distinct.2, ?_, ?_, fun id mem => once.listed id (others id mem), ?_, ?_⟩
    · refine nodup_append.mpr ⟨once.served_nodup, nodup_singleton _, ?_⟩
      rintro id handedOut _ last rfl
      obtain rfl := mem_singleton.mp last
      exact once.apart _ handedOut inDeposit
    · intro id handedOut mem
      rcases mem_append.mp handedOut with before | now
      · exact once.apart id before (others id mem)
      obtain rfl := mem_singleton.mp now
      exact distinct.1 mem
    · intro id handedOut
      rcases mem_append.mp handedOut with before | now
      · exact once.known id before
      obtain rfl := mem_singleton.mp now
      exact once.listed _ inDeposit
    intro earlier last split id handedOut again
    have kept : ∀ id ∈ deposit.used, id ∈ (if first.1 ∈ deposit.used then deposit.used
        else deposit.used.orderedInsert (· ≤ ·) first.1) := by
      intro id mem
      split
      · exact mem
      · exact (mem_orderedInsert _).mpr (.inr mem)
    rcases mem_append.mp handedOut with before | now
    · exact kept id (once.used earlier last split id before again)
    obtain rfl := mem_singleton.mp now
    show first.1 ∈ ite _ _ _
    split
    next mem => exact mem
    next => exact (mem_orderedInsert _).mpr (.inl rfl)

end Run

end Silver.Relay.Deposit
