import Mathlib

/-!
# Stretches

Lists of items drawn up one after another, such that an item that has gone from the lists never
comes back: it is on the lists of one unbroken stretch.  Lists left out on the way change
nothing about that.
-/

namespace Silver.Foundation

open List

def Stretch (lists : List (List α)) : Prop :=
  ∀ first middle last, [first, middle, last].Sublist lists →
    ∀ item ∈ first, item ∈ last → item ∈ middle

def StillOn (lists : List (List α)) (item : α) : Prop :=
  ∀ first later, [first, later].Sublist lists → item ∈ first → item ∈ later

namespace Stretch

theorem nil : Stretch ([] : List (List α)) := by
  exact nofun

theorem of_sublist (stretch : Stretch lists) (within : shorter.Sublist lists) : Stretch shorter :=
  fun first middle last three => stretch first middle last (three.trans within)

theorem sublist_snoc {chosen : List (List α)} (within : chosen.Sublist (lists ++ [items])) :
    chosen.Sublist lists ∨ ∃ before, chosen = before ++ [items] ∧ before.Sublist lists := by
  obtain ⟨before, _, rfl, left, right⟩ := sublist_append_iff.mp within
  rcases sublist_singleton.mp right with rfl | rfl
  · rw [append_nil]
    exact .inl left
  · exact .inr ⟨before, rfl, left⟩

theorem snoc (stretch : Stretch lists) (still : ∀ item ∈ items, StillOn lists item) :
    Stretch (lists ++ [items]) := by
  intro first middle last three item inFirst inLast
  rcases sublist_snoc three with before | ⟨before, split, pair⟩
  · exact stretch first middle last before item inFirst inLast
  obtain ⟨rfl, same⟩ := append_inj' (show [first, middle] ++ [last] = _ from split) rfl
  obtain rfl := singleton_injective same
  exact still item inLast first middle pair inFirst

theorem mem_last {last : List α} {item : α} (stretch : Stretch (lists ++ [last] ++ [items]))
    (before : ∃ list ∈ lists ++ [last], item ∈ list) (again : item ∈ items) :
    item ∈ last := by
  obtain ⟨list, mem, inList⟩ := before
  rcases mem_append.mp mem with early | late
  · refine stretch list last items ?_ item inList again
    have two : [list, last].Sublist (lists ++ [last]) :=
      (singleton_sublist.mpr early).append (List.Sublist.refl [last])
    exact two.append (List.Sublist.refl [items])
  obtain rfl := mem_singleton.mp late
  exact inList

end Stretch

namespace StillOn

theorem of_forall_notMem (new : ∀ list ∈ lists, item ∉ list) : StillOn lists item := by
  intro first _ pair inFirst
  exact absurd inFirst (new first (pair.subset mem_cons_self))

theorem snoc (still : StillOn lists item) (on : item ∈ items) : StillOn (lists ++ [items]) item := by
  intro first later pair inFirst
  rcases Stretch.sublist_snoc pair with before | ⟨before, split, _⟩
  · exact still first later before inFirst
  obtain ⟨_, same⟩ := append_inj' (show [first] ++ [later] = _ from split) rfl
  obtain rfl := singleton_injective same
  exact on

end StillOn

end Silver.Foundation
