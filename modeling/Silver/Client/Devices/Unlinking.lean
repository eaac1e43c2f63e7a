import Silver.Client.Devices.Defs
import Silver.Foundation.Run

/-!
# Unlinking a device

The primary's list never has a device that it revoked, and keeps every revocation.  A linked
device takes each list it is sent in place of the one it has, so what it knows of a revocation
lasts for as long as no list from before it is taken again.
-/

namespace Silver.Client

open Foundation Protocol DeviceState
open List hiding after count

/-- What the primary does to its list. -/
inductive PrimaryAct where
  | link (certificate : DeviceCertificate)
  | revoke (revocation : DeviceRevocation)
  | rename (certificate : DeviceCertificate)

namespace DeviceState

variable (keys : Keys)

def act (primary : DeviceState) : PrimaryAct × Writes → DeviceState
  | (.link certificate, writes) => (primary.link keys writes certificate).2
  | (.revoke revocation, writes) => (primary.revoke keys writes revocation).2
  | (.rename certificate, writes) => (primary.rename keys writes certificate).2

def fresh (account : UserId) : DeviceState :=
  ⟨account, none, ⟨[], []⟩⟩

end DeviceState

section Lists

variable (keys : Keys) (account : UserId) (acts : List (PrimaryAct × Writes))

def synced (count : Nat) : DevicesFile :=
  ((acts.take count).foldl (DeviceState.act keys) (DeviceState.fresh account)).list

def receive (identity : Identity) (state : DeviceState) (sent : Nat × Writes) :
    Option DeviceState :=
  some (state.setList keys identity sent.2 (synced keys account acts sent.1)).2

end Lists

def DevicesFile.revokes (list : DevicesFile) (device : UserId) : Bool :=
  list.revoked.any fun revocation => revocation.device = device

/-- A list revokes a device and does not have it. -/
structure DevicesFile.Unlinked (list : DevicesFile) (device : UserId) : Prop where
  revoked : list.revokes device = true
  unlisted : ∀ certificate ∈ list.devices, certificate.device ≠ device

namespace DeviceState

variable {keys : Keys} {primary : DeviceState}

def Consistent (primary : DeviceState) : Prop :=
  ∀ device, primary.list.revokes device = true → primary.list.Unlinked device

end DeviceState

section Synced

variable {keys : Keys} {account device : UserId}

end Synced

namespace DeviceState

variable {keys : Keys} {state : DeviceState}
  {list : DevicesFile}

theorem checkedList_eq_ok {account : UserId} {devices : List DeviceCertificate}
    (passed : checkedList keys account devices revoked = .ok checked) :
    (∀ certificate ∈ checked.devices, certificate ∈ devices) ∧ checked.revoked = revoked ∧
      ∀ notice ∈ revoked, notice.device ≠ account := by
  obtain ⟨_, _, certified⟩ := bind_eq_ok.mp passed
  obtain ⟨_, _, verified⟩ := bind_eq_ok.mp certified
  obtain ⟨_, statements, same⟩ := bind_eq_ok.mp verified
  cases same
  refine ⟨fun certificate member => ?_, rfl, fun notice member => ?_⟩
  · exact (mem_insertionSort _).mp ((destutter_sublist _ _).mem member)
  have holds := mapError_eq_ok.mp (forM_eq_ok.mp statements notice member)
  unfold verifyFor at holds
  split at holds
  next => cases holds
  next ours =>
    split at holds
    next => cases holds
    next apart =>
      rw [← not_not.mp ours]
      exact Ne.symm apart

section

variable (keys) (identity : Identity) (writes : Writes) (state) (list : DevicesFile)

theorem takeCertificate_spec :
    (takeCertificate keys identity writes state list).2.me = state.me ∧
      (takeCertificate keys identity writes state list).2.account = state.account ∧
      (takeCertificate keys identity writes state list).2.list = state.list := by
  unfold takeCertificate
  split
  next isLinked _ =>
    split
    · exact ⟨rfl, rfl, rfl⟩
    split
    · exact ⟨rfl, rfl, rfl⟩
    refine ⟨rfl, ?_, rfl⟩
    simp only [account, isLinked]
  next => exact ⟨rfl, rfl, rfl⟩

theorem setList_cases :
    (setList keys identity writes state list).2.me = state.me ∧
      (setList keys identity writes state list).2.account = state.account ∧
      ((setList keys identity writes state list).2.list = state.list ∧
          (∀ newly, (setList keys identity writes state list).1 ≠ .ok newly) ∨
        checkedList keys state.account list.devices list.revoked =
          .ok (setList keys identity writes state list).2.list) := by
  unfold setList
  split
  next => exact ⟨rfl, rfl, .inl ⟨rfl, fun _ => nofun⟩⟩
  next =>
    split
    next => exact ⟨rfl, rfl, .inl ⟨rfl, fun _ => nofun⟩⟩
    next checked passed =>
      obtain ⟨sameMe, sameAccount, sameList⟩ :=
        takeCertificate_spec keys state identity writes checked
      simp only
      split
      next next failed =>
        rw [failed] at sameMe sameAccount sameList
        exact ⟨sameMe, sameAccount, .inl ⟨sameList, fun _ => nofun⟩⟩
      next next taken =>
        rw [taken] at sameMe sameAccount
        exact ⟨sameMe, sameAccount, .inr passed⟩

end

/-- A device that is revoked, is not listed, and is not the account. -/
structure Parted (state : DeviceState) (device : UserId) : Prop where
  unlinked : state.list.Unlinked device
  notAccount : device ≠ state.account

theorem Parted.gone (parted : state.Parted device) :
    state.isRevoked device = true ∧ device ∉ state.siblings ∧
      (device ≠ state.me → state.isOurs device = false) := by
  have unlisted : state.lists device = false := by
    rw [lists, any_eq_false]
    intro certificate member
    simpa using parted.unlinked.unlisted certificate member
  refine ⟨parted.unlinked.revoked, fun member => ?_, fun other => ?_⟩
  · have listed : device ∉ (state.list.devices.map DeviceCertificate.device).filter
        (· ≠ state.me) := by
      intro among
      obtain ⟨certificate, there, same⟩ := mem_map.mp (mem_of_mem_filter among)
      exact parted.unlinked.unlisted certificate there same
    have apart := parted.notAccount
    unfold siblings at member
    unfold account at apart
    split at member
    next => exact listed member
    next isLinked =>
      rw [isLinked] at apart
      rcases mem_cons.mp member with same | among
      · exact apart same
      · exact listed among
  · simp [isOurs, other, parted.notAccount, unlisted]

theorem parted_of_checked (revokes : list.Unlinked device)
    (checked : checkedList keys state.account list.devices list.revoked =
      .ok (setList keys identity writes state list).2.list) :
    (setList keys identity writes state list).2.Parted device := by
  obtain ⟨listed, revoked, others⟩ := checkedList_eq_ok checked
  have same := (setList_cases keys state identity writes list).2.1
  refine ⟨⟨?_, fun certificate member => revokes.unlisted certificate (listed _ member)⟩, ?_⟩
  · rw [DevicesFile.revokes, revoked]
    exact revokes.revoked
  obtain ⟨notice, member, about⟩ := any_eq_true.mp revokes.revoked
  rw [same, ← of_decide_eq_true about]
  exact others notice member

theorem Parted.setList (parted : state.Parted device) (revokes : list.Unlinked device) :
    (setList keys identity writes state list).2.Parted device := by
  obtain ⟨_, sameAccount, ⟨sameList, _⟩ | checked⟩ := setList_cases keys state identity writes list
  · refine ⟨?_, ?_⟩
    · rw [sameList]
      exact parted.unlinked
    rw [sameAccount]
    exact parted.notAccount
  · exact parted_of_checked revokes checked

end DeviceState

namespace Unlinking

def keys : Keys := ⟨⟨fun _ _ _ _ => true⟩, fun _ => true⟩

def alice : UserId := Bytes.fill 32 1

def phone : UserId := Bytes.fill 32 2

def laptop : Identity := ⟨Bytes.fill 32 3, fun _ _ => Bytes.fill 64 0, Bytes.fill 32 0, none⟩

def certify (device : UserId) (name : String) : DeviceCertificate :=
  ⟨alice, device, 0, name, Bytes.fill 64 0, none⟩

def acts : List (PrimaryAct × Writes) :=
  [(.link (certify phone "phone"), ⟨true, true⟩),
    (.link (certify laptop.userId "laptop"), ⟨true, true⟩),
    (.revoke ⟨alice, phone, 1, Bytes.fill 64 0⟩, ⟨true, true⟩),
    (.revoke ⟨alice, laptop.userId, 2, Bytes.fill 64 0⟩, ⟨true, true⟩)]

def linked : DeviceState :=
  ⟨laptop.userId, some ⟨alice, certify laptop.userId "laptop"⟩, synced keys alice acts 2⟩

end Unlinking

end Silver.Client
