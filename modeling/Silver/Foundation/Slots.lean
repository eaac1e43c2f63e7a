import Mathlib

/-!
# Numbered slots

A table of slots, each blank or holding an item.  An item keeps its number for as
long as it stays; a new one takes the first blank slot, or a slot more.
-/

namespace Silver.Foundation.Slots

open List

variable {α β : Type} {index : Nat}

def occupied (slots : List (Option α)) : List (Nat × α) :=
  slots.zipIdx.filterMap fun slot => slot.1.map fun item => (slot.2, item)

def items (slots : List (Option α)) : List α :=
  slots.filterMap id

def fill : List (Option α) → α → List (Option α)
  | [], item => [some item]
  | none :: rest, item => some item :: rest
  | some other :: rest, item => some other :: fill rest item

def fillAll (slots : List (Option α)) (added : List α) : List (Option α) :=
  added.foldl fill slots

theorem mem_occupied : (index, item) ∈ occupied slots ↔ slots[index]? = some (some item) := by
  unfold occupied
  rw [mem_filterMap]
  constructor
  · rintro ⟨⟨_, _⟩, listed, same⟩
    obtain ⟨held, rfl, pair⟩ := Option.map_eq_some_iff.mp same
    cases pair
    exact mk_mem_zipIdx_iff_getElem?.mp listed
  intro held
  exact ⟨(some item, index), mk_mem_zipIdx_iff_getElem?.mpr held, rfl⟩

theorem map_snd_occupied (slots : List (Option α)) :
    (occupied slots).map Prod.snd = items slots := by
  unfold occupied items
  generalize 0 = start
  induction slots generalizing start with
  | nil => rfl
  | cons slot _ ih =>
    have later := ih (start + 1)
    cases slot with
    | none => simpa [zipIdx_cons] using later
    | some => simpa [zipIdx_cons] using later

theorem mem_items : item ∈ items slots ↔ ∃ index : Nat, slots[index]? = some (some item) := by
  rw [← map_snd_occupied, mem_map]
  constructor
  · rintro ⟨⟨index, held⟩, listed, rfl⟩
    exact ⟨index, mem_occupied.mp listed⟩
  rintro ⟨index, held⟩
  exact ⟨(index, item), mem_occupied.mpr held, rfl⟩

theorem items_mapIdx (slots : List (Option α)) (change : Nat → α → Option β) :
    items (slots.mapIdx fun index slot => slot.bind (change index)) =
      (occupied slots).filterMap fun held => change held.1 held.2 := by
  unfold items occupied
  rw [mapIdx_eq_zipIdx_map, filterMap_map, filterMap_filterMap]
  apply filterMap_congr
  rintro ⟨slot, index⟩ _
  cases slot <;> rfl

theorem getElem?_fill (held : slots[index]? = some (some item)) (added : α) :
    (fill slots added)[index]? = some (some item) := by
  induction slots generalizing index with
  | nil => simp at held
  | cons slot _ ih =>
    cases slot with
    | none =>
      cases index with
      | zero => simp at held
      | succ index => simpa [fill] using held
    | some =>
      cases index with
      | zero => simpa [fill] using held
      | succ index =>
        simp only [getElem?_cons_succ] at held
        simpa [fill] using ih held

theorem of_getElem?_fill {added : α} (held : (fill slots added)[index]? = some (some item)) :
    slots[index]? = some (some item) ∨
      item = added ∧ ∀ other, slots[index]? ≠ some (some other) := by
  induction slots generalizing index with
  | nil =>
    cases index with
    | zero => simp_all [fill]
    | succ index => simp [fill] at held
  | cons slot _ ih =>
    cases slot with
    | none =>
      cases index with
      | zero => simp_all [fill]
      | succ index => exact .inl (by simpa [fill] using held)
    | some other =>
      cases index with
      | zero => exact .inl (by simpa [fill] using held)
      | succ index =>
        simp only [fill, getElem?_cons_succ] at held ⊢
        exact ih held

theorem perm_items_fill (slots : List (Option α)) (added : α) :
    (items (fill slots added)).Perm (items slots ++ [added]) := by
  unfold items
  induction slots with
  | nil => exact List.Perm.refl _
  | cons slot rest ih =>
    cases slot with
    | none =>
      have swapped : ([added] ++ rest.filterMap id).Perm (rest.filterMap id ++ [added]) :=
        perm_append_comm
      simpa [fill] using swapped
    | some other => simpa [fill] using ih.cons other

theorem getElem?_fillAll (held : slots[index]? = some (some item)) (added : List α) :
    (fillAll slots added)[index]? = some (some item) := by
  induction added generalizing slots with
  | nil => exact held
  | cons first _ ih => exact ih (getElem?_fill held first)

theorem of_getElem?_fillAll {added : List α}
    (held : (fillAll slots added)[index]? = some (some item)) :
    slots[index]? = some (some item) ∨
      item ∈ added ∧ ∀ other, slots[index]? ≠ some (some other) := by
  induction added generalizing slots with
  | nil => exact .inl held
  | cons first _ ih =>
    rcases ih held with earlier | ⟨listed, blank⟩
    · rcases of_getElem?_fill earlier with before | ⟨rfl, blank⟩
      · exact .inl before
      · exact .inr ⟨.head _, blank⟩
    refine .inr ⟨.tail _ listed, ?_⟩
    intro other present
    exact blank other (getElem?_fill present first)

theorem perm_items_fillAll (slots : List (Option α)) (added : List α) :
    (items (fillAll slots added)).Perm (items slots ++ added) := by
  induction added generalizing slots with
  | nil => simp [fillAll]
  | cons first rest ih =>
    have placed := (perm_items_fill slots first).append_right rest
    rw [append_assoc, singleton_append] at placed
    exact (ih (fill slots first)).trans placed

end Silver.Foundation.Slots
