import Silver.Foundation.Ledger
import Silver.Relay.Mailbox.Deliverable

/-!
# Mailbox accounting

The relay counts what it queues: messages and bytes of each owner, and all bytes together.
The counters are changed with every row that comes and goes, and are at all times what the
rows add up to, so no subtraction falls short and the limits hold of the mail itself.
-/

namespace Silver.Relay.Mailbox

open Foundation Protocol Ledger List Store Indexed Table

namespace Store

def charge (store : Store) (user : UserId) : Nat × Nat :=
  Ledger.charge Row.owner Row.size store.mailbox user

/-- The counters are what the rows come to. -/
structure Accounted (store : Store) : Prop where
  usage : ∀ user, store.usage.get user =
    if (store.charge user).1 = 0 then none else some (store.charge user)
  bytes : store.mailboxBytes = Ledger.total Row.size store.mailbox

def Covers (store : Store) (row : Row) : Prop :=
  row.size <= store.mailboxBytes ∧ 1 <= (store.used row.owner).1 ∧ row.size <= (store.used row.owner).2

/-- Nothing an operation takes from a counter is more than the counter holds. -/
def Covered (store : Store) : Operation -> Prop
  | .enqueue _ _ _ => True
  | .ack user id => ∀ seq, store.byId.get id = some (user, seq) ->
      ∃ row, store.row user seq = some row ∧ row.owner = user ∧ store.Covers row
  | .expire cutoffMs => ∀ before victim after,
      (store.mailbox.filter fun row => row.receivedAt < cutoffMs) = before ++ victim :: after ->
      ∃ row, (before.foldl expireRow store).row victim.owner victim.seq = some row ∧
        row.owner = victim.owner ∧ (before.foldl expireRow store).Covers row
  | .removeUser user | .cutOff user =>
    ((store.mailbox.filter fun row => row.owner = user).map Row.size).sum <= store.mailboxBytes

def Within (store : Store) (limits : Limits) (recipient : UserId) : Prop :=
  (0 < limits.maxMessages -> (store.used recipient).1 <= limits.maxMessages) ∧
    (0 < limits.maxBytes -> (store.used recipient).2 <= limits.maxBytes) ∧
    (0 < limits.maxTotalBytes -> store.mailboxBytes <= limits.maxTotalBytes)

section

variable {store after : Store} (inserted : store.insert envelope size nowMs = some after)
include inserted

theorem insert_spec : after.mailbox =
        store.mailbox ++ [⟨envelope.recipient, store.nextSeq, nowMs, envelope, size⟩] ∧
      after.usage = store.usage.insert envelope.recipient
        ((store.used envelope.recipient).1 + 1, (store.used envelope.recipient).2 + size) ∧
      after.mailboxBytes = store.mailboxBytes + size ∧
      (store.used envelope.recipient).2 + size <= U64_MAX ∧
      store.mailboxBytes + size <= U64_MAX := by
  simp only [insert, Option.bind_eq_bind, Option.bind_eq_some_iff] at inserted
  obtain ⟨nextSeq, -, mailboxBytes, total, _, count, _, bytes, result⟩ := inserted
  cases result
  obtain ⟨rfl, totalFits⟩ := checkedAdd_eq total
  obtain ⟨rfl, -⟩ := checkedAdd_eq count
  obtain ⟨rfl, bytesFit⟩ := checkedAdd_eq bytes
  exact ⟨rfl, rfl, rfl, bytesFit, totalFits⟩

theorem within_insert {limits : Limits} (room : ¬((0 < limits.maxMessages ∧
        limits.maxMessages <= (store.used envelope.recipient).1) ∨
      (0 < limits.maxBytes ∧
        limits.maxBytes < saturatingAdd (store.used envelope.recipient).2 size)))
    (totalRoom : ¬(0 < limits.maxTotalBytes ∧
      limits.maxTotalBytes < saturatingAdd store.mailboxBytes size)) :
    after.Within limits envelope.recipient := by
  obtain ⟨-, usage, bytes, bytesFit, totalFits⟩ := insert_spec inserted
  have used : after.used envelope.recipient =
      ((store.used envelope.recipient).1 + 1, (store.used envelope.recipient).2 + size) := by
    simp [used, usage]
  unfold saturatingAdd at room totalRoom
  rw [Nat.min_eq_left bytesFit] at room
  rw [Nat.min_eq_left totalFits] at totalRoom
  unfold Within
  rw [used, bytes]
  omega

end

namespace Accounted

variable {store after : Store} {row : Row}

theorem empty : empty.Accounted where
  usage _ := rfl
  bytes := rfl

theorem used_eq (accounted : store.Accounted) (user : UserId) :
    store.used user = store.charge user := by
  unfold used
  rw [accounted.usage]
  split
  next none =>
    have empty := List.length_eq_zero_iff.mp none
    simp [charge, Ledger.charge, empty]
  · rfl

theorem of_rows (usage : ∀ user, after.usage.get user =
      if (Ledger.charge Row.owner Row.size rows user).1 = 0 then none
      else some (Ledger.charge Row.owner Row.size rows user))
    (bytes : after.mailboxBytes = total Row.size rows) (same : rows.Perm after.mailbox) :
    after.Accounted where
  usage user := by
    rw [usage user, charge, charge_perm Row.owner Row.size same]
  bytes := bytes.trans (total_perm Row.size same)

section

variable (indexed : store.Indexed) (member : row ∈ store.mailbox)
include indexed member

theorem rows_perm : store.mailbox.Perm (row :: store.without row.owner row.seq) := by
  have parts := perm_cons_filter_key indexed.once member
  have others : (store.mailbox.filter fun other => other.key ≠ row.key) =
      store.without row.owner row.seq := by
    refine filter_congr fun other _ => ?_
    simp [Row.key]
  rwa [others] at parts

theorem charge_eq (user : UserId) : store.charge user = if row.owner = user then
        ((Ledger.charge Row.owner Row.size (store.without row.owner row.seq) user).1 + 1,
          row.size + (Ledger.charge Row.owner Row.size (store.without row.owner row.seq) user).2)
      else Ledger.charge Row.owner Row.size (store.without row.owner row.seq) user := by
  rw [charge, charge_perm Row.owner Row.size (rows_perm indexed member), charge_cons]

theorem total_eq : total Row.size store.mailbox =
      row.size + total Row.size (store.without row.owner row.seq) := by
  rw [total_perm Row.size (rows_perm indexed member), total_cons]

end

theorem covers
    (accounted : store.Accounted) (indexed : store.Indexed) (member : row ∈ store.mailbox) :
    store.Covers row := by
  have charged := charge_eq indexed member row.owner
  rw [if_pos rfl] at charged
  refine ⟨?_, ?_, ?_⟩
  · rw [accounted.bytes, total_eq indexed member]
    omega
  · rw [accounted.used_eq, charged]
    omega
  rw [accounted.used_eq, charged]
  omega

theorem get_adjustUsage (usage : Table UserId (Nat × Nat)) (owner user : UserId)
    (fewerMessages fewerBytes : Nat) :
    (adjustUsage usage owner fewerMessages fewerBytes).get user = if user = owner then
        if ((usage.get owner).getD (0, 0)).1 - fewerMessages = 0 then none
        else some (((usage.get owner).getD (0, 0)).1 - fewerMessages,
          ((usage.get owner).getD (0, 0)).2 - fewerBytes)
      else usage.get user := by
  unfold adjustUsage
  dsimp only
  split
  · rw [get_remove]
  · rw [get_insert]

section

variable (accounted : store.Accounted)
include accounted

theorem drop (indexed : store.Indexed) (member : row ∈ store.mailbox)
    (mailbox : after.mailbox = store.without row.owner row.seq)
    (usage : after.usage = adjustUsage store.usage row.owner 1 row.size)
    (bytes : after.mailboxBytes = store.mailboxBytes - row.size) :
    after.Accounted where
  usage user := by
    have charged := charge_eq indexed member user
    rw [usage, get_adjustUsage]
    split
    next same =>
      subst same
      rw [if_pos rfl] at charged
      have used : (store.usage.get row.owner).getD (0, 0) = store.charge row.owner :=
        accounted.used_eq row.owner
      rw [used, charged, charge, mailbox, Nat.add_sub_cancel, Nat.add_sub_cancel_left]
    next different =>
      rw [if_neg (Ne.symm different)] at charged
      rw [accounted.usage, charged, charge, mailbox]
  bytes := by
    rw [bytes, accounted.bytes, mailbox, total_eq indexed member, Nat.add_sub_cancel_left]

theorem insert {size : Nat} (inserted : store.insert envelope size nowMs = some after) :
    after.Accounted := by
  obtain ⟨mailbox, usage, bytes, -⟩ := insert_spec inserted
  have same : after.mailbox.Perm
      (⟨envelope.recipient, store.nextSeq, nowMs, envelope, size⟩ :: store.mailbox) := by
    rw [mailbox]
    exact perm_append_singleton _ _
  constructor
  · intro user
    have charged : after.charge user = _ :=
      (charge_perm Row.owner Row.size same user).trans (charge_cons _ _ _ _ user)
    rw [usage, get_insert, accounted.used_eq, charged]
    by_cases own : user = envelope.recipient
    · subst own
      simp [charge, Nat.add_comm]
    rw [if_neg own, if_neg (Ne.symm own)]
    exact accounted.usage user
  rw [bytes, accounted.bytes, total_perm Row.size same, total_cons]
  exact Nat.add_comm _ _

theorem enqueue {encoded : Envelope -> Nat}
    (answered : store.enqueue encoded envelope nowMs limits = some (outcome, after)) :
    after.Accounted ∧ (outcome = .stored -> after.Within limits envelope.recipient) := by
  unfold Store.enqueue at answered
  dsimp only at answered
  split at answered
  · cases answered
    exact ⟨accounted, by simp⟩
  split at answered
  · cases answered
    exact ⟨accounted, by simp⟩
  next room =>
    split at answered
    · cases answered
      exact ⟨accounted, by simp⟩
    next totalRoom =>
      obtain ⟨_, inserted, pair⟩ := Option.map_eq_some_iff.mp answered
      cases pair
      exact ⟨accounted.insert inserted, fun _ => within_insert inserted room totalRoom⟩

theorem ack (indexed : store.Indexed) (user : UserId) (id : String) :
    (store.ack user id).2.Accounted := by
  unfold Store.ack
  split
  · exact accounted
  next owner seq found =>
    split
    · obtain ⟨_, member, key, rfl⟩ := (indexed.indexed id (owner, seq)).mp found
      cases key
      have there := indexed.row_eq member
      refine accounted.drop indexed member rfl ?_ ?_
      · simp [there]
      · simp [there]
    · exact accounted

theorem expireRow (indexed : store.Indexed) (member : row ∈ store.mailbox) :
    (store.expireRow row).Accounted := by
  have there := indexed.row_eq member
  refine accounted.drop indexed member ?_ ?_ ?_
  · exact (expireRow_drops indexed member).1
  · simp [Store.expireRow, there]
  · simp [Store.expireRow, there]

theorem expireRows
    {victims : List Row} (indexed : store.Indexed) (distinct : (victims.map Row.key).Nodup)
    (present : ∀ victim ∈ victims, victim ∈ store.mailbox) :
    (victims.foldl Store.expireRow store).Accounted := by
  induction victims generalizing store with
  | nil => exact accounted
  | cons victim _ ih =>
    obtain ⟨fresh, distinctRest⟩ := nodup_cons.mp distinct
    have member := present victim (.head _)
    obtain ⟨mailbox, byId, nextSeq⟩ := expireRow_drops indexed member
    refine ih (accounted.expireRow indexed member)
      (indexed.drop member mailbox byId nextSeq) distinctRest fun other listed => ?_
    rw [mailbox, mem_without]
    refine ⟨present other (.tail _ listed), fun same => fresh ?_⟩
    have key : other.key = victim.key := same
    rw [← key]
    exact mem_map_of_mem listed

end

theorem counters_removeRows (victims : List Row) (store : Store) :
    (victims.foldl removeRow store).usage = store.usage ∧
      (victims.foldl removeRow store).mailboxBytes = store.mailboxBytes := by
  induction victims generalizing store with
  | nil => exact ⟨rfl, rfl⟩
  | cons victim _ ih => exact ih (store.removeRow victim)

theorem rows_removeUserData (indexed : store.Indexed) (user : UserId) :
    (store.mailbox.filter fun row => row.owner ≠ user).Perm
      (store.removeUserData user).mailbox := by
  obtain ⟨kept, members⟩ := dropAll removeRow_drops indexed
    (indexed.victims_distinct fun row => row.owner = user)
    (fun victim listed => (mem_filter.mp listed).1)
  refine (perm_ext_iff_of_nodup (indexed.once.of_map.filter _) kept.once.of_map).mpr
    fun row => ?_
  rw [members row, mem_filter]
  refine and_congr_right fun member => ?_
  constructor
  · intro other
    exact indexed.not_victim member (by simpa using other)
  intro spared
  simp only [decide_eq_true_eq, ne_eq]
  intro own
  exact spared (mem_map_of_mem (mem_filter.mpr ⟨member, by simpa using own⟩))

section

variable (accounted : store.Accounted) (indexed : store.Indexed)
include accounted indexed

theorem removeUserData (user : UserId) : (store.removeUserData user).Accounted := by
  obtain ⟨usage, bytes⟩ := counters_removeRows
    (store.mailbox.filter fun row => row.owner = user) store
  refine of_rows (fun other => ?_) ?_ (rows_removeUserData indexed user)
  · rw [Ledger.charge_others]
    show (remove _ user).get other = _
    rw [usage, get_remove]
    split
    · rfl
    · exact accounted.usage other
  show _ - _ = _
  rw [bytes, accounted.bytes, total_eq_charge_add Row.owner Row.size _ user]
  exact Nat.add_sub_cancel_left _ _

theorem step {encoded : Envelope -> Nat} (ran : store.step encoded act = some after) :
    after.Accounted := by
  cases act with
  | enqueue =>
    obtain ⟨⟨_, _⟩, answered, rfl⟩ := Option.map_eq_some_iff.mp ran
    exact (accounted.enqueue answered).1
  | ack user id =>
    cases ran
    exact accounted.ack indexed user id
  | expire =>
    cases ran
    exact accounted.expireRows indexed (indexed.victims_distinct _)
      fun victim listed => (mem_filter.mp listed).1
  | removeUser user | cutOff user =>
    cases ran
    exact accounted.removeUserData indexed user

theorem covered_expire {before later : List Row}
    (distinct : ((before ++ victim :: later).map Row.key).Nodup)
    (present : ∀ row ∈ before ++ victim :: later, row ∈ store.mailbox) :
    (before.foldl Store.expireRow store).row victim.owner victim.seq = some victim ∧
      (before.foldl Store.expireRow store).Covers victim := by
  rw [map_append, map_cons, nodup_append] at distinct
  obtain ⟨once, -, apart⟩ := distinct
  have among : ∀ row ∈ before, row ∈ store.mailbox :=
    fun row listed => present row (mem_append_left _ listed)
  obtain ⟨kept, members⟩ := dropAll expireRow_drops indexed once among
  have member : victim ∈ (before.foldl Store.expireRow store).mailbox := by
    refine (members victim).mpr ⟨present victim (by simp), fun listed => ?_⟩
    exact apart victim.key listed victim.key (.head _) rfl
  exact ⟨kept.row_eq member, (accounted.expireRows indexed once among).covers kept member⟩

theorem covered (act : Operation) : store.Covered act := by
  have room : ∀ user, ((store.mailbox.filter fun row => row.owner = user).map Row.size).sum <=
        store.mailboxBytes := by
    intro user
    rw [accounted.bytes]
    exact charge_snd_le_total Row.owner Row.size store.mailbox user
  cases act with
  | enqueue => trivial
  | ack user id =>
    intro seq found
    obtain ⟨row, member, key, rfl⟩ := (indexed.indexed id (user, seq)).mp found
    cases key
    exact ⟨row, indexed.row_eq member, rfl, accounted.covers indexed member⟩
  | expire cutoffMs =>
    intro before victim later victims
    have distinct := indexed.victims_distinct fun row => row.receivedAt < cutoffMs
    have present : ∀ row ∈ before ++ victim :: later, row ∈ store.mailbox := by
      intro row listed
      rw [← victims] at listed
      exact (mem_filter.mp listed).1
    rw [victims] at distinct
    obtain ⟨there, covers⟩ := accounted.covered_expire indexed distinct present
    exact ⟨victim, there, rfl, covers⟩
  | removeUser user | cutOff user => exact room user

end

end Accounted

/-- The tables agree: the index is the inverse of the rows, and the counters are what the
rows come to. -/
structure Consistent (store : Store) : Prop where
  positions : (store.mailbox.map Row.key).Nodup
  ids : (store.mailbox.map fun row => row.envelope.id).Nodup
  index : ∀ id user seq, store.byId.get id = some (user, seq) ↔
    ∃ row, store.row user seq = some row ∧ row.envelope.id = id
  usage : ∀ user counts, store.usage.get user = some counts ↔
    counts = store.charge user ∧ ∃ row ∈ store.mailbox, row.owner = user
  bytes : store.mailboxBytes = (store.mailbox.map Row.size).sum
  next : ∀ row ∈ store.mailbox, row.seq < store.nextSeq

theorem Indexed.row_eq_some {store : Store} {row : Row} {user : UserId} (indexed : store.Indexed) :
    store.row user seq = some row ↔ row ∈ store.mailbox ∧ row.key = (user, seq) := by
  constructor
  · intro found
    refine ⟨List.mem_of_find?_eq_some found, ?_⟩
    have here := List.find?_some found
    simp only [Bool.and_eq_true, decide_eq_true_eq] at here
    exact Prod.ext here.1 here.2
  rintro ⟨member, key⟩
  cases key
  exact indexed.row_eq member

theorem Accounted.consistent
    {store : Store} (accounted : store.Accounted) (indexed : store.Indexed) :
    store.Consistent where
  positions := indexed.once
  ids := by
    refine (nodup_map_iff_inj_on indexed.once.of_map).mpr ?_
    intro row member _ otherMember same
    exact indexed.eq_of_id member otherMember same
  index id user seq := by
    rw [indexed.indexed]
    constructor
    · rintro ⟨row, member, key, same⟩
      exact ⟨row, indexed.row_eq_some.mpr ⟨member, key⟩, same⟩
    rintro ⟨row, found, same⟩
    obtain ⟨member, key⟩ := indexed.row_eq_some.mp found
    exact ⟨row, member, key, same⟩
  usage user counts := by
    rw [accounted.usage]
    have owns : (store.charge user).1 = 0 ↔ ∀ row ∈ store.mailbox, row.owner ≠ user := by
      simp [charge, Ledger.charge, Ledger.owned]
    split
    next none =>
      constructor
      · rintro ⟨⟩
      rintro ⟨-, row, member, own⟩
      exact absurd own (owns.mp none row member)
    next some =>
      rw [owns] at some
      push Not at some
      constructor
      · intro found
        exact ⟨(Option.some.inj found).symm, some⟩
      rintro ⟨rfl, -⟩
      rfl
  bytes := accounted.bytes
  next := indexed.below

end Store

/-- After every sequence of operations from an empty store the tables agree, no operation
that may come next takes more from a counter than it holds, and every envelope it stores is
within the limits it is stored under. -/
theorem mailbox_accounting {encoded : Envelope → Nat} {operations : List Operation} {store : Store}
    (reached : run (Store.step encoded) Store.empty operations = some store) :
    store.Consistent ∧ (∀ operation, store.Covered operation) ∧ ∀ envelope nowMs limits after,
        store.enqueue encoded envelope nowMs limits = some (.stored, after) →
        after.Within limits envelope.recipient := by
  have preserve : ∀ operation state next, Store.Indexed state ∧ Store.Accounted state ->
      step encoded state operation = some next ->
      Store.Indexed next ∧ Store.Accounted next :=
    fun _ _ _ ⟨indexed, accounted⟩ stepped => ⟨indexed.step stepped, accounted.step indexed stepped⟩
  obtain ⟨indexed, accounted⟩ :=
    run_keeps ⟨Store.Indexed.empty, Store.Accounted.empty⟩ preserve reached
  refine ⟨accounted.consistent indexed, accounted.covered indexed, ?_⟩
  intro envelope nowMs limits after stored
  exact (accounted.enqueue stored).2 rfl

def Post.day : List Operation :=
  [.enqueue (letter "a" bob) 5 Limits.default, .enqueue (letter "b" carol) 6 Limits.default,
    .enqueue (letter "c" bob) 7 Limits.default, .ack bob "a", .expire 7]

theorem accounts_of_a_day : ((run (Store.step Post.encoded) Store.empty Post.day).any fun store =>
      store.mailbox.map Row.seq = [2] && store.mailboxBytes = 211 &&
        store.usage.get Post.carol = none) = true ∧
    ∀ store, run (Store.step Post.encoded) Store.empty Post.day = some store →
      store.Consistent ∧ (∀ operation, store.Covered operation) ∧ ∀ envelope nowMs limits after,
          store.enqueue Post.encoded envelope nowMs limits = some (.stored, after) →
          after.Within limits envelope.recipient :=
  ⟨by decide +kernel, fun _ reached => mailbox_accounting reached⟩

end Silver.Relay.Mailbox
