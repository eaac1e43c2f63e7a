import Mathlib

/-!
# Byte strings of fixed layout

Signed statements, hashed leaves and associated data are byte strings put
together from parts of known length.  This module has byte arrays of a fixed
size, integers in big-endian order and text in UTF-8, with the lemmas that take
such a layout apart again.
-/

namespace Silver.Foundation

/-- An array of exactly `size` bytes. -/
@[ext] structure Bytes (size : Nat) where
  data : List UInt8
  length_data : data.length = size
deriving DecidableEq

namespace Bytes

def fill (size : Nat) (byte : UInt8) : Bytes size :=
  ⟨List.replicate size byte, List.length_replicate⟩

instance : Inhabited (Bytes size) :=
  ⟨fill size 0⟩

def split (first second : Nat) (bytes : Bytes (first + second)) : Bytes first × Bytes second :=
  (⟨bytes.data.take first, by simp [bytes.length_data]⟩,
    ⟨bytes.data.drop first, by simp [bytes.length_data]⟩)

end Bytes

def beBytes : Nat → Nat → List UInt8
  | 0, _ => []
  | width + 1, number => UInt8.ofNat (number / 256 ^ width) :: beBytes width number

@[simp] theorem length_beBytes (width number : Nat) : (beBytes width number).length = width := by
  induction width with
  | zero => rfl
  | succ width ih => simp [beBytes, ih]

theorem beBytes_mod_eq {width left right : Nat} (same : beBytes width left = beBytes width right) :
    left % 256 ^ width = right % 256 ^ width := by
  induction width with
  | zero => simp [Nat.mod_one]
  | succ width ih =>
    simp only [beBytes, List.cons.injEq] at same
    obtain ⟨sameHead, sameTail⟩ := same
    have top : left / 256 ^ width % 256 = right / 256 ^ width % 256 := by
      have := congrArg UInt8.toNat sameHead
      simpa using this
    rw [Nat.pow_succ, Nat.mod_mul, Nat.mod_mul, ih sameTail, top]

theorem beBytes_injective
    {width left right : Nat} (leftFits : left < 256 ^ width) (rightFits : right < 256 ^ width)
    (same : beBytes width left = beBytes width right) :
    left = right := by
  have := beBytes_mod_eq same
  rwa [Nat.mod_eq_of_lt leftFits, Nat.mod_eq_of_lt rightFits] at this

def utf8 (text : String) : List UInt8 :=
  text.toList.flatMap String.utf8EncodeChar

end Silver.Foundation
