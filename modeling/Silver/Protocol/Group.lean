import Silver.Protocol.Device

/-!
# The group extension

Every member of a group agrees on the group's context, which carries its name,
its admins and the key its invite links are made from.
-/

namespace Silver.Protocol

open Foundation List

abbrev GroupId : Type :=
  Bytes 32

def MAX_MEMBERS : Nat := 256

def MAX_NAME_BYTES : Nat := 64

def MAX_INLINE_MLS_BYTES : Nat := 24360

/-- The private-use extension types. -/
inductive ExtensionType where
  /-- The group's own metadata, in its context. -/
  | group
  /-- A member's sealing key, in its leaf. -/
  | seal
  /-- A linked device's certificate, in its leaf. -/
  | device
  /-- Declared by a client that reads the everyday kinds of message. -/
  | everyday
deriving DecidableEq

def isInvisible (character : Char) : Bool :=
  let code := character.val
  code = 0x200B || code = 0x200C || code = 0x200E || code = 0x200F ||
    (0x202A ≤ code && code ≤ 0x202E) || (0x2060 ≤ code && code ≤ 0x2064) ||
    (0x2066 ≤ code && code ≤ 0x2069) || code = 0xFEFF

def checkNewName (name : String) : Except ProtocolError Unit :=
  if (utf8 name).length > MAX_NAME_BYTES then .error (.malformed "group name too long")
  else if name.toList.any isControl then
    .error (.malformed "control character in group name")
  else if name.toList.any isInvisible then
    .error (.malformed "invisible character in group name")
  else .ok ()

/-- A group's metadata.  The admins are sorted, without duplicates, at least
one. -/
structure SilverGroup where
  name : String
  admins : List UserId
  inviteKey : Bytes 32
  createdAtMs : Nat
deriving DecidableEq

namespace SilverGroup

def malformed (what : String) : ProtocolError :=
  .malformed ("group extension: " ++ what)

def before (first second : UserId) : Prop :=
  first.data < second.data
deriving Decidable

def check (group : SilverGroup) : Except ProtocolError Unit :=
  if (utf8 group.name).length > MAX_NAME_BYTES then .error (malformed "name too long")
  else if group.name.toList.any isControl then .error (malformed "control character in name")
  else if group.admins.isEmpty then .error (malformed "no admins")
  else if group.admins.length > MAX_MEMBERS then .error (malformed "too many admins")
  else if ¬ group.admins.IsChain before then .error (malformed "admins not sorted")
  else .ok ()

def isAdmin (group : SilverGroup) (user : UserId) : Bool :=
  group.admins.contains user

def new (name : String) (creator : UserId) (inviteKey : Bytes 32) (createdAtMs : Nat) :
    Except ProtocolError SilverGroup := do
  let group : SilverGroup :=
    { name := name, admins := [creator], inviteKey := inviteKey, createdAtMs := createdAtMs }
  group.check
  .ok group

def withAdmin (group : SilverGroup) (user : UserId) : SilverGroup :=
  if group.admins.contains user then group
  else
    { group with
      admins := group.admins.takeWhile (before · user) ++
        user :: group.admins.dropWhile (before · user) }

def withoutAdmin (group : SilverGroup) (user : UserId) : SilverGroup :=
  { group with admins := group.admins.filter (· ≠ user) }

def withNewInviteKey (group : SilverGroup) (inviteKey : Bytes 32) : SilverGroup :=
  { group with inviteKey := inviteKey }

@[simp] theorem mem_admins_withAdmin {group : SilverGroup} {user : UserId} :
    other ∈ (group.withAdmin user).admins ↔ other = user ∨ other ∈ group.admins := by
  unfold withAdmin
  split
  next present =>
    have listed : user ∈ group.admins := by simpa using present
    constructor
    · exact .inr
    rintro (rfl | earlier)
    · exact listed
    · exact earlier
  next =>
    have parts : group.admins.takeWhile (before · user) ++
        group.admins.dropWhile (before · user) = group.admins :=
      takeWhile_append_dropWhile
    constructor
    · intro listed
      rcases mem_append.mp listed with early | late
      · exact .inr (parts ▸ mem_append_left _ early)
      rcases mem_cons.mp late with rfl | late
      · exact .inl rfl
      · exact .inr (parts ▸ mem_append_right _ late)
    rintro (rfl | listed)
    · simp
    rw [← parts, mem_append] at listed
    rcases listed with early | late
    · exact mem_append_left _ early
    · exact mem_append_right _ (.tail _ late)

@[simp] theorem mem_admins_withoutAdmin {group : SilverGroup} {user : UserId} :
    other ∈ (group.withoutAdmin user).admins ↔ other ∈ group.admins ∧ other ≠ user := by
  simp [withoutAdmin]

theorem mem_admins_foldl_withoutAdmin {group : SilverGroup} {users : List UserId} :
    other ∈ (users.foldl withoutAdmin group).admins ↔ other ∈ group.admins ∧ other ∉ users := by
  induction users generalizing group with
  | nil => simp
  | cons _ users ih =>
    rw [foldl_cons, ih, mem_admins_withoutAdmin, mem_cons]
    tauto

theorem isAdmin_iff {group : SilverGroup} {user : UserId} :
    group.isAdmin user = true ↔ user ∈ group.admins := by
  simp [isAdmin]

end SilverGroup

end Silver.Protocol
