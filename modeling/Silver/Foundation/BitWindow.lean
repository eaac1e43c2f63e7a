import Mathlib

/-!
# A machine word as a sliding window

A `w`-bit word remembers which of the `w` numbers right below a high mark have
been seen: bit `n` stands for the number `n + 1` below the mark.  Raising the
mark shifts the word and lets the old mark in at the place it falls to; noting
a number below the mark sets its bit.
-/

namespace Silver.Foundation.BitWindow

abbrev bit (width place : Nat) : BitVec width := BitVec.ofNat width 1 <<< place

@[simp] theorem getLsbD_bit (width place tested : Nat) : (bit width place).getLsbD tested =
      (decide (place < width) && decide (place = tested)) := by
  rw [bit, ← BitVec.twoPow_eq, BitVec.getLsbD_twoPow]

theorem and_bit_eq_zero_iff {width place : Nat} (word : BitVec width) (inside : place < width) :
    word &&& bit width place = BitVec.ofNat width 0 ↔ word.getLsbD place = false := by
  constructor
  · intro masked
    have tested := congrArg (fun value => value.getLsbD place) masked
    simpa [inside] using tested
  intro unset
  apply BitVec.eq_of_getLsbD_eq
  intro tested _
  rw [BitVec.getLsbD_and, getLsbD_bit, BitVec.getLsbD_zero]
  by_cases same : place = tested
  · subst tested
    simp [unset]
  · simp [same]

def slide {width : Nat} (word : BitVec width) (rise : Nat) : BitVec width :=
  (word <<< rise) ||| bit width (rise - 1)

def mark {width : Nat} (word : BitVec width) (behind : Nat) : BitVec width :=
  word ||| bit width (behind - 1)

theorem getLsbD_slide {width rise behind : Nat}
    (word : BitVec width) (risePositive : 0 < rise) (behindPositive : 0 < behind)
    (inside : behind ≤ width) :
    (slide word rise).getLsbD (behind - 1) = (decide (behind = rise) ||
        (decide (rise < behind) && word.getLsbD (behind - rise - 1))) := by
  rw [slide, BitVec.getLsbD_or, BitVec.getLsbD_shiftLeft, getLsbD_bit]
  have placeInside : behind - 1 < width := by omega
  rcases Nat.lt_trichotomy behind rise with _ | equal | above
  · have shifted : behind - 1 < rise := by omega
    have other : ¬rise - 1 = behind - 1 := by omega
    have unequal : ¬behind = rise := by omega
    have notAbove : ¬rise < behind := by omega
    simp [shifted, other, unequal, notAbove]
  · subst equal
    simp [placeInside]
  have notShifted : ¬behind - 1 < rise := by omega
  have other : ¬rise - 1 = behind - 1 := by omega
  have unequal : ¬behind = rise := by omega
  have places : behind - 1 - rise = behind - rise - 1 := by omega
  simp [placeInside, notShifted, other, unequal, above, places]

theorem getLsbD_mark {width behind tested : Nat}
    (word : BitVec width) (behindPositive : 0 < behind) (inside : behind ≤ width)
    (testedPositive : 0 < tested) :
    (mark word behind).getLsbD (tested - 1) =
      (word.getLsbD (tested - 1) || decide (tested = behind)) := by
  rw [mark, BitVec.getLsbD_or, getLsbD_bit]
  have placeInside : behind - 1 < width := by omega
  have same : behind - 1 = tested - 1 ↔ tested = behind := by omega
  simp [placeInside, same]

end Silver.Foundation.BitWindow
