import Silver.Client.Sequence.Defs

/-!
# The machine arithmetic of the replay check

A release build panics when a sum, a difference or a shift leaves the range of a `u64`.
`checkedCheck` and `checkedNote` perform `check` and `note` with that test, and `none` is
the panic.  Only the sum `last.seq + 1` can fail.
-/

namespace Silver.Client.Sequence

open Foundation Option

def subU64 (left right : Nat) : Option Nat :=
  if right ≤ left then some (left - right) else none

def shiftU64 (word : BitVec 64) (amount : Nat) : Option (BitVec 64) :=
  if amount < 64 then some (word <<< amount) else none

theorem subU64_eq (ordered : right ≤ left) : subU64 left right = some (left - right) :=
  if_pos ordered

theorem shiftU64_eq (word : BitVec 64) (inside : amount < 64) :
    shiftU64 word amount = some (word <<< amount) :=
  if_pos inside

/-- `checkCurrent` with every operation checked. -/
def checkedCheckCurrent (seen : Seen) (seq : Nat) : Option SequenceCheck :=
  if seq = seen.last.seq then some .replay
  else do
    let next ← addU64 seen.last.seq 1
    if seq > next then
      return .gap (← subU64 (← subU64 seq seen.last.seq) 1)
    else if seq > seen.last.seq then return .fresh
    else
      let behind ← subU64 seen.last.seq seq
      if behind ≤ WINDOW then
        let bit ← shiftU64 1#64 (← subU64 behind 1)
        return if seen.window &&& bit = 0#64 then .late else .replay
      else return .replay

/-- `check` with every operation checked. -/
def checkedCheck (seen : Option Seen) (incoming : SequenceNumber) : Option SequenceCheck :=
  match seen with
  | some state =>
    if incoming.seq ≠ 0 ∧ state.last.epoch = incoming.epoch then
      checkedCheckCurrent state incoming.seq
    else check seen incoming
  | none => check seen incoming

/-- `noteCurrent` with every operation checked. -/
def checkedNoteCurrent (state : Seen) (incoming : SequenceNumber) : Option Seen :=
  if incoming.seq > state.last.seq then do
    let step ← subU64 incoming.seq state.last.seq
    let window ←
      if step ≥ WINDOW then some 0#64
      else do
        let slid ← shiftU64 state.window step
        let bit ← shiftU64 1#64 (← subU64 step 1)
        some (slid ||| bit)
    return { state with window, last := incoming }
  else do
    let behind ← subU64 state.last.seq incoming.seq
    if 1 ≤ behind ∧ behind ≤ WINDOW then
      let bit ← shiftU64 1#64 (← subU64 behind 1)
      return { state with window := state.window ||| bit }
    else return state

/-- `note` with every operation checked: the outer option is the panic. -/
def checkedNote (seen : Option Seen) (incoming : SequenceNumber) : Option (Option Seen) :=
  match seen with
  | some state =>
    if incoming.seq ≠ 0 ∧ state.last.epoch = incoming.epoch then
      (checkedNoteCurrent state incoming).map some
    else some (note seen incoming)
  | none => some (note seen incoming)

/-- The check computes what its checked form does. -/
theorem checkedCheckCurrent_eq (seen : Seen) (seq : Nat) :
    checkedCheckCurrent seen seq = checkCurrent seen seq := by
  unfold checkedCheckCurrent checkCurrent
  split
  · rfl
  cases sum : addU64 seen.last.seq 1 with
  | none => rfl
  | some next =>
    obtain rfl : seen.last.seq + 1 = next := by
      unfold addU64 at sum
      split at sum <;> simp_all
    simp only [bind_eq_bind, bind_some, map_some]
    split
    · rw [subU64_eq (by omega), bind_some, subU64_eq (by omega)]
      rfl
    split
    · rfl
    rw [subU64_eq (by omega), bind_some]
    split
    case isTrue near =>
      have close : seen.last.seq - seq ≤ 64 := near
      rw [subU64_eq (by omega), bind_some, shiftU64_eq _ (by omega)]
      simp [near]
    case isFalse far => simp [far]

theorem checkedNoteCurrent_eq (state : Seen) (incoming : SequenceNumber) :
    checkedNoteCurrent state incoming = some (noteCurrent state incoming) := by
  unfold checkedNoteCurrent noteCurrent
  split
  · simp only [bind_eq_bind]
    rw [subU64_eq (by omega), bind_some]
    split
    · rfl
    case isFalse near =>
      have near : ¬ incoming.seq - state.last.seq ≥ 64 := near
      rw [shiftU64_eq _ (by omega), bind_some, subU64_eq (by omega), bind_some,
        shiftU64_eq _ (by omega)]
      rfl
  simp only [bind_eq_bind]
  rw [subU64_eq (by omega), bind_some]
  split
  case isTrue near =>
    have near : 1 ≤ state.last.seq - incoming.seq ∧ state.last.seq - incoming.seq ≤ 64 := near
    rw [subU64_eq (by omega), bind_some, shiftU64_eq _ (by omega)]
    rfl
  · rfl

theorem checkedCheck_eq (seen : Option Seen) (incoming : SequenceNumber) :
    checkedCheck seen incoming = check seen incoming := by
  cases seen with
  | none => rfl
  | some =>
    simp only [checkedCheck, checkedCheckCurrent_eq]
    split
    case isTrue current => simp [check, current]
    · rfl

/-- Recording a number never panics. -/
theorem checkedNote_eq (seen : Option Seen) (incoming : SequenceNumber) :
    checkedNote seen incoming = some (note seen incoming) := by
  cases seen with
  | none => rfl
  | some =>
    simp only [checkedNote, checkedNoteCurrent_eq]
    split
    case isTrue current => simp [note, current]
    · rfl

/-- Whether the check of `incoming` stays clear of the largest `u64`: the sum
`last.seq + 1` is taken for another number of the current epoch only. -/
def StaysClear (seen : Option Seen) (incoming : SequenceNumber) : Prop :=
  ∀ state, seen = some state → incoming.seq ≠ 0 → state.last.epoch = incoming.epoch →
    incoming.seq ≠ state.last.seq → state.last.seq < u64Max

theorem check_isSome_iff (seen : Option Seen) (incoming : SequenceNumber) :
    (check seen incoming).isSome ↔ StaysClear seen incoming := by
  unfold check StaysClear
  split
  case isTrue zero => simp [zero]
  split
  · simp
  split
  case isTrue other =>
    simp only [some.injEq]
    constructor
    · rintro _ state rfl _ same
      exact absurd same other
    intro _
    split
    · split <;> rfl
    · rfl
  case isFalse numbered state same =>
    simp only [checkCurrent, addU64]
    split
    case isTrue last => simp [last]
    case isFalse distinct =>
      simp only [isSome_map, some.injEq, forall_eq']
      split <;> simp_all

/-- Whatever numbers were recorded before, the check and the recording of a
further one complete exactly when the check stays clear of the largest `u64`. -/
theorem check_note_complete_iff (numbers : List SequenceNumber) (incoming : SequenceNumber) :
    ∃ seen, numbers.foldlM checkedNote none = some seen ∧
      ((checkedCheck seen incoming).isSome ∧ (checkedNote seen incoming).isSome ↔
        StaysClear seen incoming) := by
  refine ⟨numbers.foldl note none, ?_, ?_⟩
  · have total : checkedNote = fun seen incoming => some (note seen incoming) := by
      funext seen incoming
      exact checkedNote_eq seen incoming
    rw [total]
    exact List.foldlM_pure (m := Option)
  rw [checkedCheck_eq, checkedNote_eq, isSome_some, check_isSome_iff]
  simp

/-- After the largest number of an epoch, the first one makes the check panic. -/
theorem check_panics_after_largest :
    [⟨7, u64Max⟩].foldlM checkedNote none = some (some ⟨⟨7, u64Max⟩, 0#64, none⟩) ∧
      checkedCheck (some ⟨⟨7, u64Max⟩, 0#64, none⟩) ⟨7, 1⟩ = none := by
  decide +kernel

end Silver.Client.Sequence
