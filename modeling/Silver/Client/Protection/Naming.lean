import Silver.Client.History.Tampering
import Silver.Client.Protection.Unlocking

/-!
# A conversation's log across unlocks

A log is found under the name the naming key gives it.  A vault that keeps that key
gives every unlock the same names; one from before there was such a key is unwrapped
with a fresh one each time, and no unlock writes it down.
-/

namespace Silver.Client.Protection

open Foundation

namespace Store

def unlocks : Nat → Store → Except Failure Store
  | 0, store => .ok store
  | count + 1, store =>
    match store.directory.vault with
    | none => .error .vaultGone
    | some vault => do
        let next ← (store.crash.unlock vault).complete
        next.unlocks count

theorem unlocks_of_again {store : Store} (found : store.directory.vault = some vault)
    (again : (store.crash.unlock vault).complete = .ok store) (count : Nat) :
    store.unlocks count = .ok store := by
  induction count with
  | zero => rfl
  | succ count ih =>
    simp only [unlocks, found, again]
    exact ih

/-- After an unlock every further one finds each conversation under the same name,
and loads from it what was loaded, exactly when the vault keeps the naming key. -/
theorem loadHistory_across_unlocks
    (json : LineJson) {directory : Directory} {vault : Vault} {fresh : Key} {first : Store}
    ( isProtected : directory.vault = some vault)
    (unlocked : ((opened directory fresh).unlock vault).complete = .ok first) :
    (∀ count, ∃ later, first.unlocks count = .ok later ∧
      ∀ conversation, later.historyFile conversation = first.historyFile conversation ∧
        ∀ entries, first.loadHistory json conversation = .ok entries →
          later.loadHistory json conversation = .ok entries) ↔
      vault.naming.isSome := by
  obtain ⟨generation, settled⟩ := unlock_settles isProtected unlocked
  obtain ⟨drawn, idle⟩ := complete_frame unlocked
  constructor
  · intro same
    by_contra missing
    obtain ⟨later, again, agree⟩ := same 1
    have unnamed : vault.naming = none := by simpa using missing
    simp only [unlocks, settled.inPlace] at again
    obtain ⟨second, unlockedAgain, rest⟩ : ∃ second,
        (first.crash.unlock { vault with
          previous := none, stateGeneration := some generation }).complete = .ok second ∧
        second = later := by
      revert again
      cases (first.crash.unlock { vault with
          previous := none, stateGeneration := some generation }).complete with
      | error => exact nofun
      | ok second => exact fun same => ⟨second, rfl, Except.ok.inj same⟩
    subst rest
    obtain ⟨_, settledAgain⟩ := unlock_settles settled.inPlace unlockedAgain
    have name := (agree (.group [])).1
    -- the second naming key is the next one drawn
    simp only [historyFile, settledAgain.unlocked, settled.unlocked, Vault.unwrap,
      Cipher.settled, unnamed, Option.getD_none, LogName.mac.injEq, and_true] at name
    simp only [unlock, opened, unnamed] at drawn
    rw [drawn] at name
    exact absurd name (Nat.succ_ne_self fresh)
  intro named count
  obtain ⟨naming, kept⟩ := Option.isSome_iff_exists.mp named
  have again := settled.unlock_again (by simp [Vault.unwrap, Cipher.settled, kept]) named rfl idle
  exact ⟨first, unlocks_of_again settled.inPlace again count, fun _ => ⟨rfl, fun _ => id⟩⟩

end Store

def Vault.early (naming : Option Key) : Vault :=
  { kind := .passphrase, key := 0, previous := none, naming, stateGeneration := none }

def Directory.early (naming : Option Key) : Directory :=
  { vault := some (Vault.early naming)
    contents := AList.singleton (.log (.plain (.group [])))
      [.sealed 0 (.log (.plain (.group []))) (.text ['x'])] }

namespace Store

theorem loadHistory_across_unlocks_of_early :
    ∃ first, ((opened (.early (some 1)) 2).unlock (.early (some 1))).complete = .ok first ∧
      first.loadHistory .greeting (.group []) = .ok [.greeting] ∧
      ∀ count, ∃ later, first.unlocks count = .ok later ∧
        ∀ conversation, later.historyFile conversation = first.historyFile conversation ∧
          ∀ entries, first.loadHistory .greeting conversation = .ok entries →
            later.loadHistory .greeting conversation = .ok entries := by
  have inPlace : (Directory.early (some 1)).vault = some (.early (some 1)) := rfl
  exact ⟨_, rfl, rfl, (loadHistory_across_unlocks .greeting inPlace rfl).mpr rfl⟩

/-- A log the first unlock moved to a new name is not found by the second where the
vault keeps no naming key. -/
theorem loadHistory_lost_without_naming_key :
    ∃ first later, ((opened (.early none) 1).unlock (.early none)).complete = .ok first ∧
      first.unlocks 1 = .ok later ∧
      first.loadHistory .greeting (.group []) = .ok [.greeting] ∧
      later.loadHistory .greeting (.group []) = .ok [] :=
  ⟨_, _, rfl, rfl, rfl, rfl⟩

end Store

end Silver.Client.Protection
