import Silver.Protocol.Session.Defs

/-!
# Replacing the Diffie-Hellman key

An identity publishes one key and, for a while, keeps the secret of the one it
published before.  A replacement that could not be written is undone.
-/

namespace Silver.Protocol

/-- How long a replaced key goes on opening what was sealed to it. -/
def DH_ROTATION_GRACE_MS : Nat := 30 * 24 * 60 * 60 * 1000

/-- The secrets an identity holds, the replaced one with when it expires. -/
structure DhKeys (Secret : Type) where
  current : Secret
  previous : Option (Secret × Nat)
deriving DecidableEq

namespace DhKeys

def rotateDh (dh : DhKeys Secret) (fresh : Secret) (nowMs : Nat) : DhKeys Secret :=
  { current := fresh
    previous := some (dh.current, min (nowMs + DH_ROTATION_GRACE_MS) (2 ^ 64 - 1)) }

def unrotateDh (dh : DhKeys Secret) : Bool × DhKeys Secret :=
  match dh.previous with
  | some (old, _) => (true, { current := old, previous := none })
  | none => (false, dh)

def dhPair (publicOf : Secret → Public) (dh : DhKeys Secret) : DhKey → Option (Secret × Public)
  | .current => some (dh.current, publicOf dh.current)
  | .previous => dh.previous.map fun (secret, _) => (secret, publicOf secret)

/-- The keys as a replacement that is undone leaves them. -/
def failedRotation (dh : DhKeys Secret) (fresh : Secret) (nowMs : Nat) : DhKeys Secret :=
  (dh.rotateDh fresh nowMs).unrotateDh.2

theorem failedRotation_eq (dh : DhKeys Secret) (fresh : Secret) (nowMs : Nat) :
    dh.failedRotation fresh nowMs = { dh with previous := none } :=
  rfl

/-- Undoing a replacement restores the keys, and whatever they open, exactly where
no earlier key was still held. -/
theorem failedRotation_restores_iff (publicOf : Secret → Public) (dh : DhKeys Secret)
    (fresh : Secret) (nowMs : Nat) :
    (dh.failedRotation fresh nowMs = dh ∧ ∀ which pair, dh.dhPair publicOf which = some pair →
      ∃ which, (dh.failedRotation fresh nowMs).dhPair publicOf which = some pair) ↔
      dh.previous = none := by
  rw [failedRotation_eq]
  constructor
  · rintro ⟨same, -⟩
    exact (congrArg previous same).symm
  · intro none
    have same : { dh with previous := .none } = dh := by
      rw [← none]
    exact ⟨same, fun which pair held => ⟨which, same.symm ▸ held⟩⟩

/-- A replacement inside the grace of another one, undone, has forgotten a key. -/
theorem failedRotation_forgets_previous :
    let dh : DhKeys Nat := { current := 2, previous := some (1, 5000) }
    dh.dhPair id .previous = some (1, 1) ∧
      ∀ which, (dh.failedRotation 3 1000).dhPair id which ≠ some (1, 1) := by
  refine ⟨rfl, ?_⟩
  rintro (_ | _)
  · decide
  · decide

end DhKeys

end Silver.Protocol
