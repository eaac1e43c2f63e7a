import Silver.Foundation.Bytes

/-!
# The epoch sequencer

The relay keeps one entry for each group: the epoch the group stands at and the hash
of the token that moves it on.  A commit is accepted where it names that epoch and
shows that token.
-/

namespace Silver.Relay

open Foundation

/-- What the relay keeps of a group. -/
structure GroupEntry where
  epoch : Nat
  next : Bytes 32
  createdAtMs : Nat
  updatedAtMs : Nat
  retiredAtMs : Option Nat
deriving DecidableEq

/-- What the sequencer says. -/
inductive Sequenced where
  | stands (epoch : Nat)
  | stale (epoch : Nat)
  | existsAt (epoch : Nat)
  | notFound
  | forbidden
deriving DecidableEq

def LAST_EPOCH : Nat := 2 ^ 64 - 1

/-- Create the entry of a group, or raise a retired one with the values it died
at. -/
def groupCreate (entry : Option GroupEntry) (epoch : Nat) (next : Bytes 32) (nowMs : Nat) :
    Sequenced × Option GroupEntry :=
  match entry with
  | some existing =>
    let same := existing.epoch = epoch && existing.next = next
    if same && existing.retiredAtMs.isSome then
      (.stands epoch, some { existing with retiredAtMs := none, updatedAtMs := nowMs })
    else if same then (.stands epoch, some existing)
    else (.existsAt existing.epoch, some existing)
  | none =>
    (.stands epoch, some
        { epoch := epoch
          next := next
          createdAtMs := nowMs
          updatedAtMs := nowMs
          retiredAtMs := none })

/-- Move a group on by one epoch. -/
def groupCommit (tokenHash : Bytes 32 → Bytes 32) (entry : Option GroupEntry) (epoch : Nat)
    (token next : Bytes 32) (nowMs : Nat) : Sequenced × Option GroupEntry :=
  match entry with
  | none => (.notFound, none)
  | some existing =>
    if existing.epoch ≠ epoch then (.stale existing.epoch, some existing)
    else if tokenHash token ≠ existing.next then (.forbidden, some existing)
    else if existing.epoch = LAST_EPOCH then (.stale existing.epoch, some existing)
    else
      (.stands (existing.epoch + 1), some
          { existing with
            epoch := existing.epoch + 1
            next := next
            updatedAtMs := nowMs
            retiredAtMs := none })

theorem groupCreate_stands
    {stands : Nat} (created : (groupCreate entry epoch next nowMs).1 = .stands stands) :
    stands = epoch ∧ ∃ after, (groupCreate entry epoch next nowMs).2 = some after ∧
      after.epoch = epoch := by
  cases entry with
  | none => exact ⟨(Sequenced.stands.inj created).symm, _, rfl, rfl⟩
  | some =>
    unfold groupCreate at created ⊢
    simp only at created ⊢
    split at created
    next raised =>
      simp only [Bool.and_eq_true, decide_eq_true_eq] at raised
      rw [if_pos (by simpa using raised)]
      exact ⟨(Sequenced.stands.inj created).symm, _, rfl, raised.1.1⟩
    next notRaised =>
      rw [if_neg notRaised]
      split at created
      next same =>
        rw [if_pos same]
        simp only [Bool.and_eq_true, decide_eq_true_eq] at same
        exact ⟨(Sequenced.stands.inj created).symm, _, rfl, same.1⟩
      next => cases created

theorem groupCreate_refused
    (refused : ∀ stands, (groupCreate entry epoch next nowMs).1 ≠ .stands stands) :
    (groupCreate entry epoch next nowMs).2 = entry := by
  cases entry with
  | none => exact absurd rfl (refused epoch)
  | some =>
    unfold groupCreate at refused ⊢
    simp only at refused ⊢
    split
    next raised => exact absurd (by rw [if_pos raised]) (refused epoch)
    next =>
      split
      · rfl
      · rfl

theorem groupCommit_stands {token : Bytes 32} {stands : Nat}
    (accepted : (groupCommit tokenHash entry epoch token next nowMs).1 = .stands stands) :
    stands = epoch + 1 ∧ (∃ before, entry = some before ∧ before.epoch = epoch) ∧
      ∃ after, (groupCommit tokenHash entry epoch token next nowMs).2 = some after ∧
        after.epoch = epoch + 1 := by
  cases entry with
  | none => cases accepted
  | some existing =>
    unfold groupCommit at accepted ⊢
    simp only at accepted ⊢
    split at accepted
    · cases accepted
    next atEpoch =>
      rw [if_neg atEpoch]
      simp only [ne_eq, not_not] at atEpoch
      split at accepted
      · cases accepted
      next shown =>
        rw [if_neg shown]
        split at accepted
        · cases accepted
        next notLast =>
          rw [if_neg notLast]
          subst atEpoch
          exact ⟨(Sequenced.stands.inj accepted).symm, ⟨existing, rfl, rfl⟩, _, rfl, rfl⟩

theorem groupCommit_refused {token : Bytes 32}
    (refused : ∀ stands, (groupCommit tokenHash entry epoch token next nowMs).1 ≠ .stands stands) :
    (groupCommit tokenHash entry epoch token next nowMs).2 = entry := by
  cases entry with
  | none => rfl
  | some existing =>
    unfold groupCommit at refused ⊢
    simp only at refused ⊢
    split
    · rfl
    next atEpoch =>
      split
      · rfl
      next shown =>
        split
        · rfl
        next notLast =>
          exact absurd (by rw [if_neg atEpoch, if_neg shown, if_neg notLast])
            (refused (existing.epoch + 1))

def Sequenced.accepted : Sequenced → Bool
  | .stands _ => true
  | .stale _ | .existsAt _ | .notFound | .forbidden => false

theorem groupCreate_cases
    (entry : Option GroupEntry) (epoch : Nat) (next : Bytes 32) (nowMs : Nat) :
    (groupCreate entry epoch next nowMs).2 = entry ∨ (entry = none ∧
        (groupCreate entry epoch next nowMs).2 = some ⟨epoch, next, nowMs, nowMs, none⟩) ∨
      ∃ existing, entry = some existing ∧ existing.epoch = epoch ∧ existing.next = next ∧
        existing.retiredAtMs.isSome = true ∧
        (groupCreate entry epoch next nowMs).2 =
          some { existing with retiredAtMs := none, updatedAtMs := nowMs } := by
  cases entry with
  | none => exact .inr (.inl ⟨rfl, rfl⟩)
  | some existing =>
    simp only [groupCreate]
    split
    next raised =>
      simp only [Bool.and_eq_true, decide_eq_true_eq] at raised
      exact .inr (.inr ⟨existing, rfl, raised.1.1, raised.1.2, raised.2, rfl⟩)
    next =>
      left
      split
      · rfl
      · rfl

theorem groupCommit_cases
    (tokenHash : Bytes 32 → Bytes 32) (entry : Option GroupEntry) (epoch : Nat)
    (token next : Bytes 32) (nowMs : Nat) :
    ((groupCommit tokenHash entry epoch token next nowMs).1.accepted = false ∧
      (groupCommit tokenHash entry epoch token next nowMs).2 = entry) ∨
    ∃ existing, entry = some existing ∧ existing.epoch = epoch ∧
      tokenHash token = existing.next ∧ epoch ≠ LAST_EPOCH ∧
      groupCommit tokenHash entry epoch token next nowMs = (.stands (epoch + 1), some
            { existing with
              epoch := epoch + 1
              next := next
              updatedAtMs := nowMs
              retiredAtMs := none }) := by
  cases entry with
  | none => exact .inl ⟨rfl, rfl⟩
  | some existing =>
    simp only [groupCommit]
    by_cases elsewhere : existing.epoch ≠ epoch
    · rw [if_pos elsewhere]
      exact .inl ⟨rfl, rfl⟩
    rw [if_neg elsewhere]
    obtain rfl := not_not.mp elsewhere
    by_cases unknown : tokenHash token ≠ existing.next
    · rw [if_pos unknown]
      exact .inl ⟨rfl, rfl⟩
    rw [if_neg unknown]
    by_cases last : existing.epoch = LAST_EPOCH
    · rw [if_pos last]
      exact .inl ⟨rfl, rfl⟩
    rw [if_neg last]
    exact .inr ⟨existing, rfl, rfl, not_not.mp unknown, last, rfl⟩

end Silver.Relay
