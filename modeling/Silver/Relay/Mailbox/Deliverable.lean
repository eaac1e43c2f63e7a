import Silver.Relay.Mailbox.Defs

/-!
# Accepted mail is deliverable

The index of ids is exactly where the rows sit.  An envelope the relay says it has is in
its recipient's mailbox where no other mailbox holds the id, and stays there until that
recipient acknowledges it, it is too old, or the recipient's data goes.
-/

namespace Silver.Relay.Mailbox

open Foundation Protocol List Store

def Row.key (row : Row) : UserId × Nat :=
  (row.owner, row.seq)

namespace Store

def Holds (store : Store) (user : UserId) (id : String) : Prop :=
  ∃ row ∈ store.mailbox, row.owner = user ∧ row.envelope.id = id
deriving Decidable

def Ends (store : Store) (user : UserId) (id : String) : Operation -> Prop
  | .enqueue _ _ _ => False
  | .ack owner acked => owner = user ∧ acked = id
  | .expire cutoffMs => ∃ row ∈ store.mailbox,
      row.owner = user ∧ row.envelope.id = id ∧ row.receivedAt < cutoffMs
  | .removeUser owner | .cutOff owner => owner = user

/-- Positions are used once, and the index says where the rows sit. -/
structure Indexed (store : Store) : Prop where
  once : (store.mailbox.map Row.key).Nodup
  below : ∀ row ∈ store.mailbox, row.seq < store.nextSeq
  indexed : ∀ id key, store.byId.get id = some key ↔
    ∃ row ∈ store.mailbox, row.key = key ∧ row.envelope.id = id

theorem mem_without {store : Store} {row : Row} {owner : UserId} :
    row ∈ store.without owner seq ↔ row ∈ store.mailbox ∧ row.key ≠ (owner, seq) := by
  simp [without, Row.key, imp_iff_not_or]

namespace Indexed

variable {store after : Store} {row other : Row}

theorem empty : empty.Indexed where
  once := nodup_nil
  below _ member := by cases member
  indexed id key := by
    constructor
    · exact nofun
    rintro ⟨_, member, -⟩
    cases member

section

variable (indexed : store.Indexed) (member : row ∈ store.mailbox)
include indexed member

theorem eq_of_key (otherMember : other ∈ store.mailbox) (same : row.key = other.key) :
    row = other :=
  inj_on_of_nodup_map indexed.once member otherMember same

theorem eq_of_id
    (otherMember : other ∈ store.mailbox) (same : row.envelope.id = other.envelope.id) :
    row = other := by
  have first := (indexed.indexed row.envelope.id row.key).mpr ⟨row, member, rfl, rfl⟩
  have second := (indexed.indexed row.envelope.id other.key).mpr
    ⟨other, otherMember, rfl, same.symm⟩
  exact indexed.eq_of_key member otherMember (Option.some.inj (first.symm.trans second))

theorem row_eq : store.row row.owner row.seq = some row := by
  cases found : store.row row.owner row.seq with
  | none =>
    have absent := find?_eq_none.mp found row member
    simp at absent
  | some there =>
    have same := find?_some found
    simp only [Bool.and_eq_true, decide_eq_true_eq] at same
    have key : there.key = row.key := Prod.ext same.1 same.2
    rw [indexed.eq_of_key (mem_of_find?_eq_some found) member key]

end

theorem drop (indexed : store.Indexed) (member : row ∈ store.mailbox)
    (mailbox : after.mailbox = store.without row.owner row.seq)
    (byId : after.byId = store.byId.remove row.envelope.id)
    (nextSeq : after.nextSeq = store.nextSeq) :
    after.Indexed := by
  have kept : ∀ other, other ∈ after.mailbox ↔ other ∈ store.mailbox ∧ other.key ≠ row.key := by
    intro other
    rw [mailbox]
    exact mem_without
  refine ⟨?_, fun other otherMember => ?_, fun id key => ?_⟩
  · rw [mailbox]
    exact indexed.once.sublist (List.Sublist.map _ filter_sublist)
  · rw [nextSeq]
    exact indexed.below other ((kept other).mp otherMember).1
  rw [byId, Table.get_remove]
  constructor
  · intro found
    split at found
    · cases found
    next different =>
      obtain ⟨other, otherMember, rfl, rfl⟩ := (indexed.indexed id key).mp found
      refine ⟨other, (kept other).mpr ⟨otherMember, fun same => ?_⟩, rfl, rfl⟩
      exact different (congrArg (fun row => row.envelope.id)
        (indexed.eq_of_key otherMember member same))
  rintro ⟨other, otherMember, rfl, rfl⟩
  obtain ⟨before, apart⟩ := (kept other).mp otherMember
  rw [if_neg fun same => apart (congrArg Row.key (indexed.eq_of_id before member same))]
  exact (indexed.indexed _ _).mpr ⟨other, before, rfl, rfl⟩

theorem dropAll {remove : Store -> Row -> Store}
    (each : ∀ {store : Store} {row : Row}, store.Indexed -> row ∈ store.mailbox ->
      (remove store row).mailbox = store.without row.owner row.seq ∧
      (remove store row).byId = store.byId.remove row.envelope.id ∧
      (remove store row).nextSeq = store.nextSeq)
    {victims : List Row} (indexed : store.Indexed) (distinct : (victims.map Row.key).Nodup)
    (present : ∀ victim ∈ victims, victim ∈ store.mailbox) :
    (victims.foldl remove store).Indexed ∧ ∀ row, row ∈ (victims.foldl remove store).mailbox ↔
        row ∈ store.mailbox ∧ row.key ∉ victims.map Row.key := by
  induction victims generalizing store with
  | nil => exact ⟨indexed, fun row => by simp⟩
  | cons victim rest ih =>
    obtain ⟨mailbox, byId, nextSeq⟩ := each indexed (present victim (.head _))
    have dropped := indexed.drop (present victim (.head _)) mailbox byId nextSeq
    obtain ⟨fresh, distinctRest⟩ := nodup_cons.mp distinct
    have still : ∀ other ∈ rest, other ∈ (remove store victim).mailbox := by
      intro other member
      rw [mailbox, mem_without]
      refine ⟨present other (.tail _ member), fun same => fresh ?_⟩
      have key : other.key = victim.key := same
      rw [← key]
      exact mem_map_of_mem member
    obtain ⟨result, members⟩ := ih dropped distinctRest still
    refine ⟨result, fun row => ?_⟩
    rw [foldl_cons, members row, mailbox, mem_without, map_cons, mem_cons, not_or, and_assoc]
    rfl

section

variable (indexed : store.Indexed)
include indexed

theorem insert {size : Nat} (absent : store.byId.get envelope.id = none)
    (inserted : store.insert envelope size nowMs = some after) :
    after.Indexed ∧
      after.mailbox = store.mailbox ++ [⟨envelope.recipient, store.nextSeq, nowMs, envelope, size⟩] := by
  simp only [Store.insert, Option.bind_eq_bind, Option.bind_eq_some_iff] at inserted
  obtain ⟨nextSeq, next, _, -, _, -, _, -, result⟩ := inserted
  cases result
  have following : nextSeq = store.nextSeq + 1 := by
    unfold checkedAdd at next
    split at next
    · exact (Option.some.inj next).symm
    · cases next
  refine ⟨⟨?_, fun row member => ?_, fun id key => ?_⟩, rfl⟩
  · simp only [map_append, map_cons, map_nil, nodup_append]
    refine ⟨indexed.once, by simp, fun key member last found => ?_⟩
    obtain ⟨row, rowMember, rfl⟩ := mem_map.mp member
    obtain rfl := mem_singleton.mp found
    intro same
    exact Nat.ne_of_lt (indexed.below row rowMember) (congrArg Prod.snd same)
  · show row.seq < nextSeq
    rw [following]
    rcases mem_append.mp member with earlier | new
    · exact Nat.lt_succ_of_lt (indexed.below row earlier)
    obtain rfl := mem_singleton.mp new
    exact Nat.lt_succ_self _
  show (store.byId.insert envelope.id (envelope.recipient, store.nextSeq)).get id = some key ↔ _
  rw [Table.get_insert]
  constructor
  · intro found
    split at found
    next same =>
      cases found
      exact ⟨_, mem_append.mpr (.inr (.head _)), rfl, same.symm⟩
    · obtain ⟨row, member, here⟩ := (indexed.indexed id key).mp found
      exact ⟨row, mem_append.mpr (.inl member), here⟩
  rintro ⟨row, member, rfl, rfl⟩
  rcases mem_append.mp member with earlier | new
  · have found := (indexed.indexed _ _).mpr ⟨row, earlier, rfl, rfl⟩
    rw [if_neg (fun same => by rw [same, absent] at found; cases found)]
    exact found
  obtain rfl := mem_singleton.mp new
  rw [if_pos rfl]
  rfl

theorem enqueue {encoded : Envelope -> Nat}
    (answered : store.enqueue encoded envelope nowMs limits = some (outcome, after)) :
    after.Indexed ∧ (outcome ≠ .stored -> after = store) ∧
      (outcome = .duplicate -> (store.byId.get envelope.id).isSome = true) ∧
      (outcome = .stored -> store.byId.get envelope.id = none ∧ after.mailbox = store.mailbox ++
          [⟨envelope.recipient, store.nextSeq, nowMs, envelope, 8 + encoded envelope⟩]) := by
  unfold Store.enqueue at answered
  dsimp only at answered
  split at answered
  next queued =>
    cases answered
    exact ⟨indexed, fun _ => rfl, fun _ => queued, by simp⟩
  next fresh =>
    split at answered
    · cases answered
      exact ⟨indexed, fun _ => rfl, by simp, by simp⟩
    split at answered
    · cases answered
      exact ⟨indexed, fun _ => rfl, by simp, by simp⟩
    obtain ⟨_, inserted, pair⟩ := Option.map_eq_some_iff.mp answered
    cases pair
    have absent : store.byId.get envelope.id = none := by simpa using fresh
    obtain ⟨kept, mailbox⟩ := indexed.insert absent inserted
    exact ⟨kept, fun other => absurd rfl other, by simp, fun _ => ⟨absent, mailbox⟩⟩

theorem ack (user : UserId) (id : String) : (store.ack user id).2.Indexed ∧
      ∀ row ∈ store.mailbox, ¬(row.owner = user ∧ row.envelope.id = id) ->
        row ∈ (store.ack user id).2.mailbox := by
  unfold Store.ack
  split
  · exact ⟨indexed, fun _ member _ => member⟩
  next owner seq found =>
    split
    next own =>
      obtain ⟨row, member, key, rfl⟩ := (indexed.indexed id (owner, seq)).mp found
      cases key
      refine ⟨indexed.drop member rfl rfl rfl, fun other otherMember different => ?_⟩
      refine mem_without.mpr ⟨otherMember, fun same => different ?_⟩
      rw [indexed.eq_of_key otherMember member same]
      exact ⟨own, rfl⟩
    · exact ⟨indexed, fun _ member _ => member⟩

theorem expireRow_drops (member : row ∈ store.mailbox) :
    (store.expireRow row).mailbox = store.without row.owner row.seq ∧
      (store.expireRow row).byId = store.byId.remove row.envelope.id ∧
      (store.expireRow row).nextSeq = store.nextSeq := by
  have there := indexed.row_eq member
  have points := (indexed.indexed row.envelope.id row.key).mpr ⟨row, member, rfl, rfl⟩
  unfold expireRow
  rw [there]
  exact ⟨rfl, if_pos points, rfl⟩

end

theorem removeRow_drops (_ : store.Indexed) (_ : row ∈ store.mailbox) :
    (store.removeRow row).mailbox = store.without row.owner row.seq ∧
      (store.removeRow row).byId = store.byId.remove row.envelope.id ∧
      (store.removeRow row).nextSeq = store.nextSeq :=
  ⟨rfl, rfl, rfl⟩

section

variable (indexed : store.Indexed)
include indexed

theorem victims_distinct (chosen : Row -> Bool) :
    ((store.mailbox.filter chosen).map Row.key).Nodup :=
  indexed.once.sublist (List.Sublist.map _ filter_sublist)

theorem not_victim (member : row ∈ store.mailbox) (spared : chosen row = false) :
    row.key ∉ (store.mailbox.filter chosen).map Row.key := by
  intro among
  obtain ⟨_, victimMember, same⟩ := mem_map.mp among
  obtain ⟨held, picked⟩ := mem_filter.mp victimMember
  rw [indexed.eq_of_key held member same, spared] at picked
  cases picked

theorem expire (cutoffMs : Nat) : (store.expire cutoffMs).Indexed ∧
      ∀ row ∈ store.mailbox, ¬row.receivedAt < cutoffMs -> row ∈ (store.expire cutoffMs).mailbox := by
  obtain ⟨kept, members⟩ := dropAll expireRow_drops indexed
    (indexed.victims_distinct fun row => row.receivedAt < cutoffMs)
    (fun victim member => (mem_filter.mp member).1)
  refine ⟨kept, fun row member young => (members row).mpr ⟨member, ?_⟩⟩
  exact indexed.not_victim member (by simpa using young)

theorem removeUserData (user : UserId) : (store.removeUserData user).Indexed ∧
      ∀ row ∈ store.mailbox, row.owner ≠ user -> row ∈ (store.removeUserData user).mailbox := by
  obtain ⟨kept, members⟩ := dropAll removeRow_drops indexed
    (indexed.victims_distinct fun row => row.owner = user)
    (fun victim member => (mem_filter.mp member).1)
  refine ⟨{ kept with }, fun row member other => (members row).mpr ⟨member, ?_⟩⟩
  exact indexed.not_victim member (by simpa using other)

theorem step (ran : store.step encoded act = some after) : after.Indexed := by
  cases act with
  | enqueue =>
    obtain ⟨⟨_, _⟩, answered, rfl⟩ := Option.map_eq_some_iff.mp ran
    exact (indexed.enqueue answered).1
  | ack user id =>
    cases ran
    exact (indexed.ack user id).1
  | expire cutoffMs =>
    cases ran
    exact (indexed.expire cutoffMs).1
  | removeUser user | cutOff user =>
    cases ran
    exact (indexed.removeUserData user).1

theorem holds_step {user : UserId} {id : String} (holds : store.Holds user id)
    (keeps : ¬store.Ends user id act) (ran : store.step encoded act = some after) :
    after.Holds user id := by
  obtain ⟨row, member, rfl, rfl⟩ := holds
  cases act with
  | enqueue =>
    obtain ⟨⟨outcome, _⟩, answered, rfl⟩ := Option.map_eq_some_iff.mp ran
    obtain ⟨-, unchanged, -, stored⟩ := indexed.enqueue answered
    by_cases kind : outcome = .stored
    · refine ⟨row, ?_, rfl, rfl⟩
      rw [(stored kind).2]
      exact mem_append.mpr (.inl member)
    rw [unchanged kind]
    exact ⟨row, member, rfl, rfl⟩
  | ack owner acked =>
    cases ran
    refine ⟨row, (indexed.ack owner acked).2 row member fun mine => keeps ?_, rfl, rfl⟩
    exact ⟨mine.1.symm, mine.2.symm⟩
  | expire cutoffMs =>
    cases ran
    refine ⟨row, (indexed.expire cutoffMs).2 row member fun old => keeps ?_, rfl, rfl⟩
    exact ⟨row, member, rfl, rfl, old⟩
  | removeUser owner | cutOff owner =>
    cases ran
    exact ⟨row, (indexed.removeUserData owner).2 row member fun mine => keeps mine.symm, rfl, rfl⟩

theorem accepted (answered : store.enqueue encoded envelope nowMs limits = some (outcome, after))
    (taken : outcome = .stored ∨ outcome = .duplicate) :
    after.Holds envelope.recipient envelope.id ↔
      ∀ other, other ≠ envelope.recipient -> ¬store.Holds other envelope.id := by
  obtain ⟨-, unchanged, duplicate, stored⟩ := indexed.enqueue answered
  rcases taken with rfl | rfl
  · obtain ⟨absent, mailbox⟩ := stored rfl
    constructor
    · rintro - other - ⟨row, member, rfl, same⟩
      cases absent.symm.trans ((indexed.indexed _ _).mpr ⟨row, member, rfl, same⟩)
    intro _
    exact ⟨_, by rw [mailbox]; exact mem_append.mpr (.inr (.head _)), rfl, rfl⟩
  obtain ⟨key, found⟩ := Option.isSome_iff_exists.mp (duplicate rfl)
  obtain ⟨row, member, -, same⟩ := (indexed.indexed envelope.id key).mp found
  rw [unchanged (by simp)]
  constructor
  · rintro ⟨_, ownMember, recipient, ownId⟩ other different ⟨_, theirMember, rfl, theirId⟩
    have one := indexed.eq_of_id ownMember theirMember (ownId.trans theirId.symm)
    exact different (one ▸ recipient)
  intro nobody
  by_contra missing
  by_cases recipient : row.owner = envelope.recipient
  · exact missing ⟨row, member, recipient, same⟩
  · exact nobody row.owner recipient ⟨row, member, rfl, same⟩

end

end Indexed

end Store

/-- In every store reached, an envelope the relay says it has is in its recipient's mailbox
exactly where no other mailbox holds its id; once there, it stays through every run of
operations none of which ends it. -/
theorem accepted_mail_deliverable
    {encoded : Envelope → Nat} {before : List Operation} {store after : Store}
    {envelope : Envelope} {nowMs : Nat} {limits : Limits} {outcome : Enqueue}
    (reached : run (Store.step encoded) Store.empty before = some store)
    (answered : store.enqueue encoded envelope nowMs limits = some (outcome, after))
    (taken : outcome = .stored ∨ outcome = .duplicate) :
    (after.Holds envelope.recipient envelope.id ↔
      ∀ other, other ≠ envelope.recipient → ¬store.Holds other envelope.id) ∧
    (after.Holds envelope.recipient envelope.id → ∀ later final, EachState (Store.step encoded)
        (fun state operation => ¬state.Ends envelope.recipient envelope.id operation) after later →
      run (Store.step encoded) after later = some final →
      final.Holds envelope.recipient envelope.id) := by
  have keeps : ∀ operation state next, Store.Indexed state ->
      step encoded state operation = some next -> Store.Indexed next :=
    fun _ _ _ indexed stepped => indexed.step stepped
  have indexed := run_keeps Store.Indexed.empty keeps reached
  refine ⟨indexed.accepted answered taken, fun holds later final each ended => ?_⟩
  have preserve : ∀ operation state next,
      Store.Indexed state ∧ state.Holds envelope.recipient envelope.id ->
      ¬state.Ends envelope.recipient envelope.id operation ->
      step encoded state operation = some next ->
      Store.Indexed next ∧ next.Holds envelope.recipient envelope.id :=
    fun _ _ _ ⟨indexed, held⟩ stays stepped =>
      ⟨indexed.step stepped, indexed.holds_step held stays stepped⟩
  exact (EachState.run_keeps each ⟨(indexed.enqueue answered).1, holds⟩ preserve ended).2

namespace Post

def bob : UserId := Bytes.fill 32 1

def carol : UserId := Bytes.fill 32 2

def letter (id : String) (recipient : UserId) : Envelope :=
  ⟨id, recipient, Bytes.fill 32 0, Bytes.fill 24 0, [1, 2, 3]⟩

def encoded (envelope : Envelope) : Nat :=
  200 + envelope.ciphertext.length

end Post

theorem letter_to_carol_stays : ((run (Store.step Post.encoded) Store.empty
        [.enqueue (Post.letter "a" Post.bob) 5 Limits.default]).any fun store =>
      (store.enqueue Post.encoded (Post.letter "b" Post.carol) 7 Limits.default).any
        fun answer => answer.1 = .stored) = true ∧
    ∀ store after, run (Store.step Post.encoded) Store.empty
        [.enqueue (Post.letter "a" Post.bob) 5 Limits.default] = some store →
      store.enqueue Post.encoded (Post.letter "b" Post.carol) 7 Limits.default =
        some (.stored, after) →
      (after.Holds Post.carol "b" ↔ ∀ other, other ≠ Post.carol → ¬store.Holds other "b") ∧
      (after.Holds Post.carol "b" → ∀ later final, EachState (Store.step Post.encoded)
          (fun state operation => ¬state.Ends Post.carol "b" operation) after later →
        run (Store.step Post.encoded) after later = some final → final.Holds Post.carol "b") :=
  ⟨by decide +kernel, fun _ _ reached answered =>
    accepted_mail_deliverable reached answered (.inl rfl)⟩

/-- An id queued for one user makes the relay say it has a letter for another, whose mailbox
is empty. -/
theorem duplicate_for_another : ((run (Store.step Post.encoded) Store.empty
        [.enqueue (Post.letter "a" Post.bob) 5 Limits.default]).any fun store =>
      (store.enqueue Post.encoded (Post.letter "a" Post.carol) 7 Limits.default).any
        fun answer => answer.1 = .duplicate && !decide (answer.2.Holds Post.carol "a")) = true := by
  decide +kernel

end Silver.Relay.Mailbox
