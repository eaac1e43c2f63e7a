import Silver.Client.Sequence.Defs

/-!
# What the window remembers inside one epoch

The bits of `Seen.window` stand for the accepted numbers within sixty-four of the highest,
with one exception: when the highest rises by exactly sixty-four, the slide clears the word
instead of setting the bit of the number it rose from.  `Jumped` names that situation in
terms of the numbers received, and `Tracks` is the invariant.
-/

namespace Silver.Client.Sequence

open Foundation BitWindow List SequenceCheck

def Jumped (numbers : List Nat) (low : Nat) : Prop :=
  ∃ first between, numbers = first ++ (low + WINDOW) :: between ∧ low ∈ first ∧
      (∀ number ∈ first, number <= low) ∧
      ∀ number ∈ between, number <= low + WINDOW

theorem jumped_snoc_of_le (low : Nat) (covered : ∃ high ∈ numbers, number <= high) :
    Jumped (numbers ++ [number]) low ↔ Jumped numbers low := by
  obtain ⟨high, highMember, numberBound⟩ := covered
  constructor
  · rintro ⟨first, between, split, lowMember, firstBound, betweenBound⟩
    induction between using reverseRecOn with
    | nil =>
      obtain ⟨rfl, headEquality⟩ := append_inj' split rfl
      have highBound := firstBound high highMember
      simp only [cons.injEq, and_true, WINDOW] at headEquality
      omega
    | append_singleton between =>
      rw [← cons_append, ← append_assoc] at split
      obtain ⟨rfl, -⟩ := append_inj' split rfl
      exact ⟨first, between, rfl, lowMember, firstBound,
        fun other mem => betweenBound other (by simp [mem])⟩
  rintro ⟨first, between, rfl, lowMember, firstBound, betweenBound⟩
  refine ⟨first, between ++ [number], by simp, lowMember, firstBound, ?_⟩
  have highBound : high <= low + WINDOW := by
    simp only [mem_append, mem_cons] at highMember
    rcases highMember with inFirst | rfl | inBetween
    · exact (firstBound high inFirst).trans (by omega)
    · exact le_rfl
    · exact betweenBound high inBetween
  intro other mem
  simp only [mem_append, mem_singleton] at mem
  rcases mem with inBetween | rfl
  · exact betweenBound other inBetween
  · exact numberBound.trans highBound

theorem jumped_snoc_of_gt (low : Nat) (above : ∀ other ∈ numbers, other < number) :
    Jumped (numbers ++ [number]) low ↔ low + WINDOW = number ∧ low ∈ numbers ∧
        ∀ other ∈ numbers, other <= low := by
  constructor
  · rintro ⟨_, between, split, lowMember, firstBound, betweenBound⟩
    induction between using reverseRecOn with
    | nil =>
      obtain ⟨rfl, headEquality⟩ := append_inj' split rfl
      simp only [cons.injEq, and_true] at headEquality
      exact ⟨headEquality.symm, lowMember, firstBound⟩
    | append_singleton between =>
      rw [← cons_append, ← append_assoc] at split
      obtain ⟨rfl, lastEquality⟩ := append_inj' split rfl
      simp only [cons.injEq, and_true] at lastEquality
      subst lastEquality
      have raised := above (low + WINDOW) (by simp)
      have bounded := betweenBound number (by simp)
      omega
  rintro ⟨rfl, lowMember, bound⟩
  exact ⟨numbers, [], rfl, lowMember, bound, by simp⟩

/-- How the memory of one epoch stands to the numbers received in it and those
of them that were accepted. -/
structure Tracks (numbers accepted : List Nat) (last : Nat) (window : BitVec 64) : Prop where
  /-- The highest number was accepted. -/
  last_mem : last ∈ accepted
  /-- It is the highest received. -/
  bound : ∀ number ∈ numbers, number <= last
  /-- What was accepted was received. -/
  subset : ∀ number ∈ accepted, number ∈ numbers
  /-- A bit stands for an accepted number, except one a jump dropped. -/
  remembers : ∀ number, number < last -> last <= number + WINDOW ->
    (window.getLsbD (last - number - 1) = true ↔ number ∈ accepted ∧ ¬Jumped numbers number)

namespace Tracks

variable {numbers accepted : List Nat}

theorem singleton (number : Nat) : Tracks [number] [number] number 0#64 where
  last_mem := by simp
  bound := by simp
  subset := by simp
  remembers := by
    intro _ _ _
    simp only [BitVec.getLsbD_zero, Bool.false_eq_true, mem_singleton, false_iff]
    omega

variable (tracks : Tracks numbers accepted last window)
include tracks

theorem refuse (bounded : number <= last) :
    Tracks (numbers ++ [number]) accepted last window where
  last_mem := tracks.last_mem
  bound := by
    intro other mem
    simp only [mem_append, mem_singleton] at mem
    rcases mem with old | rfl
    · exact tracks.bound other old
    · exact bounded
  subset := fun other mem => mem_append_left _ (tracks.subset other mem)
  remembers := by
    intro other below near
    have covered : ∃ high ∈ numbers, number <= high :=
      ⟨last, tracks.subset last tracks.last_mem, bounded⟩
    rw [jumped_snoc_of_le other covered]
    exact tracks.remembers other below near

theorem late (below : number < last) (near : last <= number + WINDOW)
    (steady : ¬Jumped numbers number) :
    Tracks (numbers ++ [number]) (accepted ++ [number]) last (mark window (last - number)) where
  last_mem := mem_append_left _ tracks.last_mem
  bound := (tracks.refuse below.le).bound
  subset := by
    intro other mem
    simp only [mem_append, mem_singleton] at mem ⊢
    exact mem.imp_left (tracks.subset other)
  remembers := by
    intro other otherBelow otherNear
    have covered : ∃ high ∈ numbers, number <= high :=
      ⟨last, tracks.subset last tracks.last_mem, below.le⟩
    have inside : last - number <= 64 := by
      simp only [WINDOW] at near
      omega
    rw [getLsbD_mark window (by omega) inside (by omega), jumped_snoc_of_le other covered]
    have remembered := tracks.remembers other otherBelow otherNear
    by_cases same : other = number
    · subst same
      simp [steady]
    have places : ¬last - other = last - number := by omega
    simp only [places, decide_false, Bool.or_false, mem_append, mem_singleton, same, or_false]
    exact remembered

/-- A number above the highest becomes the highest and the window slides. -/
theorem raise (above : last < number) :
    Tracks (numbers ++ [number]) (accepted ++ [number]) number
      (if number - last ≥ WINDOW then 0#64
        else slide window (number - last)) where
  last_mem := by simp
  bound := by
    intro other mem
    simp only [mem_append, mem_singleton] at mem
    rcases mem with old | rfl
    · exact (tracks.bound other old).trans above.le
    · exact le_rfl
  subset := by
    intro other mem
    simp only [mem_append, mem_singleton] at mem ⊢
    exact mem.imp_left (tracks.subset other)
  remembers := by
    intro other _ near
    have allBelow : ∀ old ∈ numbers, old < number :=
      fun old mem => (tracks.bound old mem).trans_lt above
    rw [jumped_snoc_of_gt other allBelow]
    have lastReceived := tracks.subset last tracks.last_mem
    have notNew : ¬other = number := by omega
    simp only [mem_append, mem_singleton, notNew, or_false]
    simp only [WINDOW] at near ⊢
    by_cases far : number - last ≥ 64
    · -- the slide clears the word: only a number in reach could be the old
      -- highest itself, and that one has jumped
      simp only [far, if_true, BitVec.getLsbD_zero, Bool.false_eq_true, false_iff]
      rintro ⟨mem, steady⟩
      have otherBound := tracks.bound other (tracks.subset other mem)
      have otherLast : other = last := by omega
      subst otherLast
      exact steady ⟨by omega, lastReceived, tracks.bound⟩
    have rises : 0 < number - last := by omega
    have behind : 0 < number - other := by omega
    have inside : number - other <= 64 := by omega
    have slid := getLsbD_slide window rises behind inside
    simp only [far, if_false, slid, Bool.or_eq_true, decide_eq_true_eq, Bool.and_eq_true]
    have steady : ¬(other + 64 = number ∧ other ∈ numbers ∧ ∀ old ∈ numbers, old <= other) := by
      rintro ⟨_, _, bound⟩
      have := bound last lastReceived
      omega
    simp only [steady, not_false_eq_true, and_true]
    constructor
    · rintro (same | ⟨lower, bitSet⟩)
      · have otherLast : other = last := by omega
        exact otherLast ▸ tracks.last_mem
      have places : number - other - (number - last) - 1 = last - other - 1 := by omega
      rw [places] at bitSet
      exact ((tracks.remembers other (by omega) (by simp only [WINDOW]; omega)).mp bitSet).1
    intro mem
    have otherBound := tracks.bound other (tracks.subset other mem)
    rcases Nat.lt_or_eq_of_le otherBound with lower | same
    · right
      refine ⟨by omega, ?_⟩
      have places : number - other - (number - last) - 1 = last - other - 1 := by omega
      rw [places]
      refine (tracks.remembers other lower (by simp only [WINDOW]; omega)).mpr ⟨mem, ?_⟩
      -- a jump from `other` would put the highest `WINDOW` above it
      rintro ⟨_, _, rfl, _⟩
      have := tracks.bound (other + WINDOW) (by simp)
      simp only [WINDOW] at this
      omega
    left
    omega

end Tracks

theorem checkCurrent_accepted_iff (seq : Nat) (room : seen.last.seq < u64Max) :
    ∃ verdict, checkCurrent seen seq = some verdict ∧ verdict ≠ .legacy ∧ (verdict.accepted = true ↔
        seen.last.seq < seq ∨ (seq < seen.last.seq ∧ seen.last.seq <= seq + WINDOW ∧
            seen.window.getLsbD (seen.last.seq - seq - 1) = false)) := by
  unfold checkCurrent
  by_cases same : seq = seen.last.seq
  · exact ⟨.replay, by simp [same], by simp, by simp [accepted, same]⟩
  have noOverflow : addU64 seen.last.seq 1 = some (seen.last.seq + 1) := by
    simp only [addU64]
    exact if_pos room
  simp only [same, if_false, noOverflow, Option.map_some, Option.some.injEq]
  refine ⟨_, rfl, ?_⟩
  by_cases gap : seq > seen.last.seq + 1
  · have above : seen.last.seq < seq := by omega
    simp [gap, accepted, above]
  by_cases next : seq > seen.last.seq
  · simp [gap, next, accepted]
  have below : seq < seen.last.seq := by omega
  have notAbove : ¬seen.last.seq < seq := by omega
  simp only [gap, next, if_false, below, false_or, true_and]
  by_cases near : seen.last.seq - seq <= WINDOW
  · have inside : seen.last.seq - seq - 1 < 64 := by
      simp only [WINDOW] at near
      omega
    have bitTest := and_bit_eq_zero_iff seen.window inside
    have reach : seen.last.seq <= seq + WINDOW := by omega
    by_cases unset : seen.window.getLsbD (seen.last.seq - seq - 1) = false
    · have masked := bitTest.mpr unset
      simp only [bit] at masked
      simp [near, masked, unset, reach, accepted]
    have masked := mt bitTest.mp unset
    simp only [bit] at masked
    simp [near, masked, unset, reach, accepted]
  have reach : ¬seen.last.seq <= seq + WINDOW := by omega
  simp [near, reach, accepted]

theorem checkCurrent_accepts
    {accepted : List Nat} (seq : Nat) (tracks : Tracks numbers accepted seen.last.seq seen.window)
    (room : seen.last.seq < u64Max) :
    ∃ verdict, checkCurrent seen seq = some verdict ∧ verdict ≠ .legacy ∧ (verdict.accepted = true ↔
        (seq ∉ accepted ∨ Jumped numbers seq) ∧ seen.last.seq <= seq + WINDOW) := by
  obtain ⟨verdict, computed, numbered, acceptedIff⟩ := checkCurrent_accepted_iff seq room
  refine ⟨verdict, computed, numbered, acceptedIff.trans ?_⟩
  rcases Nat.lt_trichotomy seq seen.last.seq with below | same | above
  · have notAbove : ¬seen.last.seq < seq := by omega
    simp only [notAbove, false_or, below, true_and]
    constructor
    · rintro ⟨near, unset⟩
      refine ⟨?_, near⟩
      by_contra kept
      rw [not_or, not_not] at kept
      rw [(tracks.remembers seq below near).mpr kept] at unset
      exact absurd unset (by decide)
    rintro ⟨forgotten, near⟩
    refine ⟨near, ?_⟩
    rw [← Bool.not_eq_true, tracks.remembers seq below near]
    rintro ⟨mem, steady⟩
    rcases forgotten with fresh | jumped
    · exact fresh mem
    · exact steady jumped
  · subst same
    have noJump : ¬Jumped numbers seen.last.seq := by
      rintro ⟨_, _, rfl, _⟩
      have := tracks.bound (seen.last.seq + WINDOW) (by simp)
      simp only [WINDOW] at this
      omega
    simp [tracks.last_mem, noJump]
  have fresh : seq ∉ accepted := by
    intro mem
    have := tracks.bound seq (tracks.subset seq mem)
    omega
  simp only [above, true_or, fresh, not_false_eq_true, true_and, true_iff]
  omega

theorem noteCurrent_tracks {accepted : List Nat} {incoming : SequenceNumber}
    (tracks : Tracks numbers accepted seen.last.seq seen.window)
    (steady : ¬Jumped numbers incoming.seq) (fresh : incoming.seq ∉ accepted)
    (near : seen.last.seq <= incoming.seq + WINDOW) :
    Tracks (numbers ++ [incoming.seq]) (accepted ++ [incoming.seq])
      (noteCurrent seen incoming).last.seq (noteCurrent seen incoming).window := by
  unfold noteCurrent
  by_cases above : incoming.seq > seen.last.seq
  · simpa [above, slide] using tracks.raise above
  have apart : incoming.seq ≠ seen.last.seq := by
    intro same
    exact fresh (same ▸ tracks.last_mem)
  have below : incoming.seq < seen.last.seq := by omega
  have positive : 1 <= seen.last.seq - incoming.seq := by omega
  have inside : seen.last.seq - incoming.seq <= WINDOW := by omega
  simpa [above, positive, inside, mark] using tracks.late below near steady

end Silver.Client.Sequence
