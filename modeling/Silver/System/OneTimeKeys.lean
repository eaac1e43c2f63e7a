import Silver.Client.Sessions.Prekeys
import Silver.Foundation.Run
import Silver.Relay.Handout

/-!
# One-time keys between their owner and the relay

An owner publishes the one-time keys it has on deposit as far as it knows; the relay replaces
its deposit by each list it is sent and hands keys out in between.  Publishes reach the relay
in order and may be lost; what the relay reports back may be late, lost, repeated or wrong.
-/

namespace Silver.System

open Foundation Protocol Client Relay List SessionStore
open Prod (fst)

/-- One kind of key between its owner and the relay: the lists drawn up, those on their way and
those the deposit was replaced by, the ids handed out, and the ids of the keys that sessions
were made with. -/
structure Handover (Key : Type) where
  composed : List (List Nat)
  queue : List (List (Nat × Key))
  processed : List (List Nat)
  deposit : Deposit Key
  served : List Nat
  established : List Nat

namespace Handover

def empty : Handover Key :=
  ⟨[], [], [], Deposit.empty, [], []⟩

def publish (exchange : Handover Key) (keys : List (Nat × Key)) : Handover Key :=
  { exchange with
    composed := exchange.composed ++ [keys.map fst]
    queue := exchange.queue ++ [keys] }

/-- The relay takes the next list. -/
def set (exchange : Handover Key) : Option (Handover Key) :=
  match exchange.queue with
  | [] => none
  | keys :: queue =>
    some
      { exchange with
        queue := queue
        processed := exchange.processed ++ [keys.map fst]
        deposit := exchange.deposit.replace keys }

def lose (exchange : Handover Key) (index : Nat) : Handover Key :=
  { exchange with queue := exchange.queue.eraseIdx index }

def take (exchange : Handover Key) : Handover Key :=
  { exchange with
    deposit := exchange.deposit.take.2
    served := exchange.served ++ (exchange.deposit.take.1.map fst).toList }

def establish (exchange : Handover Key) (id : Option Nat) : Handover Key :=
  { exchange with established := exchange.established ++ id.toList }

/-- The account of one kind: the owner's keys have ids that were drawn, each once; a key off
the owner's list stays off; the lists reach the relay in order; and no key that a session was
made with is there any more. -/
structure Kept {Secret : Type} (id : Secret → Nat) (drawn : List Nat)
    (own : List (Deposited Secret)) (exchange : Handover Key) : Prop where
  known : ∀ key ∈ idsOf id own, key ∈ drawn
  distinct : (idsOf id own).Nodup
  stretch : Stretch exchange.composed
  still : ∀ key ∈ offered id own, StillOn exchange.composed key
  composed_known : ∀ list ∈ exchange.composed, ∀ key ∈ list, key ∈ drawn
  order : (exchange.processed ++ exchange.queue.map (·.map fst)).Sublist exchange.composed
  once : Deposit.Once exchange.processed exchange.deposit exchange.served
  established_nodup : exchange.established.Nodup
  established_known : ∀ key ∈ exchange.established, key ∈ drawn
  established_apart : ∀ key ∈ exchange.established, key ∉ idsOf id own

section Steps

variable {id : Secret → Nat}
  {own after : List (Deposited Secret)} {exchange : Handover Key}

theorem kept_empty (id : Secret → Nat) : Kept id [] [] (empty : Handover Key) where
  known := fun _ mem => absurd mem not_mem_nil
  distinct := nodup_nil
  stretch := Stretch.nil
  still := fun _ mem => absurd mem not_mem_nil
  composed_known := fun _ mem => absurd mem not_mem_nil
  order := List.Sublist.refl _
  once := Deposit.Once.empty
  established_nodup := nodup_nil
  established_known := fun _ mem => absurd mem not_mem_nil
  established_apart := fun _ mem => absurd mem not_mem_nil

section

variable (kept : Kept id drawn own exchange)
include kept

theorem Kept.renew
    {fresh : List Nat} (renewed : Renewed id fresh own after) (distinct : (idsOf id after).Nodup)
    (new : ∀ key ∈ fresh, key ∉ drawn) :
    Kept id (drawn ++ fresh) after exchange := by
  refine
    { kept with
      known := fun key mem => mem_append.mpr ((renewed.known key mem).imp_left (kept.known key))
      distinct
      still := fun key mem => ?_
      composed_known := fun list mem key inList =>
        mem_append_left _ (kept.composed_known list mem key inList)
      established_known := fun key mem => mem_append_left _ (kept.established_known key mem)
      established_apart := fun key mem there => ?_ }
  · rcases renewed.offers key mem with old | drawnNow
    · exact kept.still key old
    apply StillOn.of_forall_notMem
    intro list listed inList
    exact new key drawnNow (kept.composed_known list listed key inList)
  rcases renewed.known key there with old | drawnNow
  · exact kept.established_apart key mem old
  · exact new key drawnNow (kept.established_known key mem)

theorem Kept.publish {keys : List (Nat × Key)} (all : keys.map fst = offered id own) :
    Kept id drawn own (exchange.publish keys) := by
  refine
    { kept with
      stretch := kept.stretch.snoc fun key mem => kept.still key (all ▸ mem)
      still := fun key mem => (kept.still key mem).snoc (all ▸ mem)
      composed_known := fun list mem key inList => ?_
      order := ?_ }
  · rcases mem_append.mp mem with old | last
    · exact kept.composed_known list old key inList
    obtain rfl := mem_singleton.mp last
    rw [all] at inList
    exact kept.known key (mem_idsOf_of_offered inList)
  rw [Handover.publish, map_append, ← append_assoc]
  exact kept.order.append (List.Sublist.refl _)

theorem Kept.set {next : Handover Key} (replaced : exchange.set = some next) :
    Kept id drawn own next := by
  unfold Handover.set at replaced
  split at replaced
  · cases replaced
  next keys _ waiting =>
    cases replaced
    have order := kept.order
    rw [waiting, map_cons, ← singleton_append, ← append_assoc] at order
    have stretch := kept.stretch.of_sublist ((sublist_append_left _ _).trans order)
    exact { kept with order := order, once := kept.once.replace stretch }

theorem Kept.lose (index : Nat) : Kept id drawn own (exchange.lose index) :=
  { kept with
    order := ((List.Sublist.refl _).append ((eraseIdx_sublist _ _).map _)).trans kept.order }

theorem Kept.take : Kept id drawn own exchange.take := by
  refine { kept with once := ?_ }
  cases taken : exchange.deposit.take with
  | mk entry next =>
    cases entry with
    | some entry =>
      have once := kept.once.take taken
      simpa [Handover.take, taken] using once
    | none =>
      have same : next = exchange.deposit := by
        unfold Deposit.take at taken
        split at taken
        · exact (Prod.mk.inj taken).2.symm
        · cases (Prod.mk.inj taken).1
      simpa [Handover.take, taken, same] using kept.once

theorem Kept.establish {used : Option Nat} (fewer : after.Sublist own)
    (there : ∀ key, used = some key → key ∈ idsOf id own)
    (gone : ∀ key, used = some key → key ∉ idsOf id after) :
    Kept id drawn after (exchange.establish used) where
  known := fun key mem => kept.known key ((fewer.map _).subset mem)
  distinct := kept.distinct.sublist (fewer.map _)
  stretch := kept.stretch
  still := fun key mem => kept.still key (((fewer.filter _).map _).subset mem)
  composed_known := kept.composed_known
  order := kept.order
  once := kept.once
  established_nodup := by
    refine nodup_append.mpr ⟨kept.established_nodup, ?_, ?_⟩
    · cases used with
      | none => exact nodup_nil
      | some key => exact nodup_singleton key
    rintro key before _ now rfl
    exact kept.established_apart key before (there key (Option.mem_toList.mp now))
  established_known := by
    intro key mem
    rcases mem_append.mp mem with before | now
    · exact kept.established_known key before
    · exact kept.known key (there key (Option.mem_toList.mp now))
  established_apart := by
    intro key mem
    rcases mem_append.mp mem with before | now
    · exact fun left => kept.established_apart key before ((fewer.map _).subset left)
    · exact gone key (Option.mem_toList.mp now)

end

end Steps

end Handover

/-- The owner, both kinds of key, and the random numbers drawn so far. -/
structure KeyExchange where
  owner : SessionStore
  oneTime : Handover DhPublic
  pqOneTime : Handover SignedPqPrekey
  drawn : List Nat

/-- What happens between an owner and the relay. -/
inductive KeyMove where
  | publish (nowMs : Nat) (supply : Supply) (saved : Bool)
  | status (remaining : Nat) (consumed : List Nat) (pqRemaining : Option Nat)
      (pqConsumed : List Nat) (nowMs : Nat) (supply : Supply) (saved : Bool)
  | receive (sender : UserId) (body : RatchetBody) (nowMs : Nat) (draws : RatchetDraws)
      (prekeysSaved saved : Bool)
  | set
  | lose (index : Nat)
  | take
  | setPq
  | losePq (index : Nat)
  | takePq

def KeyMove.draws : KeyMove → List Nat
  | .publish _ supply _ => supply.ids
  | .status _ _ _ _ _ supply _ => supply.ids
  | _ => []

namespace KeyExchange

variable (primitives : Primitives) (identity : Identity)

def start (me : UserId) : KeyExchange :=
  ⟨⟨me, ⟨[], [], [], []⟩, ∅, []⟩, .empty, .empty, []⟩

/-- The owner draws up its lists and sends them, where they are saved. -/
def publish (exchange : KeyExchange) (nowMs : Nat) (supply : Supply) (saved : Bool) :
    Option KeyExchange :=
  (exchange.owner.prekeysForPublish primitives identity nowMs saved supply).map
    fun ((published, owner), _) =>
      let drawn := exchange.drawn ++ supply.ids
      match published with
      | .error _ => { exchange with owner := owner, drawn := drawn }
      | .ok prekeys =>
        { owner := owner
          oneTime :=
            exchange.oneTime.publish (prekeys.oneTime.map fun key => (key.id, key.dhPublic))
          pqOneTime := exchange.pqOneTime.publish (prekeys.pqOneTime.map fun key => (key.id, key))
          drawn := drawn }

/-- A body reaches the owner. -/
def receive (exchange : KeyExchange) (sender : UserId) (body : RatchetBody) (nowMs : Nat)
    (draws : RatchetDraws) (prekeysSaved saved : Bool) : KeyExchange :=
  let keys := exchange.owner.completes primitives identity sender body draws
  { exchange with
    owner := (exchange.owner.decrypt primitives identity sender body nowMs draws prekeysSaved
      saved).2
    oneTime := exchange.oneTime.establish
      (keys.bind fun keys => keys.oneTime.map PrekeySecret.id)
    pqOneTime := exchange.pqOneTime.establish
      (keys.bind fun keys => if keys.pqOneTime then keys.pq.map PqPrekeySecret.id else none) }

/-- One move. -/
def step (exchange : KeyExchange) : KeyMove → Option KeyExchange
  | .publish nowMs supply saved => exchange.publish primitives identity nowMs supply saved
  | .status remaining consumed pqRemaining pqConsumed nowMs supply saved =>
    (exchange.owner.applyPrekeyStatus remaining consumed pqRemaining pqConsumed nowMs saved
      supply).map fun ((_, owner), _) =>
        { exchange with owner := owner, drawn := exchange.drawn ++ supply.ids }
  | .receive sender body nowMs draws prekeysSaved saved =>
    some (exchange.receive primitives identity sender body nowMs draws prekeysSaved saved)
  | .set => exchange.oneTime.set.map fun next => { exchange with oneTime := next }
  | .lose index => some { exchange with oneTime := exchange.oneTime.lose index }
  | .take => some { exchange with oneTime := exchange.oneTime.take }
  | .setPq => exchange.pqOneTime.set.map fun next => { exchange with pqOneTime := next }
  | .losePq index => some { exchange with pqOneTime := exchange.pqOneTime.lose index }
  | .takePq => some { exchange with pqOneTime := exchange.pqOneTime.take }

def FreshDraws (exchange : KeyExchange) (move : KeyMove) : Prop :=
  (exchange.drawn ++ move.draws).Nodup
deriving Decidable

/-- Both kinds are accounted for. -/
structure Sound (exchange : KeyExchange) : Prop where
  oneTime : exchange.oneTime.Kept PrekeySecret.id exchange.drawn exchange.owner.prekeys.oneTime
  pqOneTime :
    exchange.pqOneTime.Kept PqPrekeySecret.id exchange.drawn exchange.owner.prekeys.pqOneTime

variable {primitives identity} {exchange next : KeyExchange} {supply rest : Supply}

section

variable (sound : exchange.Sound) (fresh : (exchange.drawn ++ supply.ids).Nodup)
include sound fresh

theorem Sound.allApart : exchange.owner.prekeys.AllApart supply.ids := by
  have apart := (nodup_append.mp fresh).2.2
  exact ⟨⟨sound.oneTime.distinct, fun key mem drawn =>
      apart key (sound.oneTime.known key mem) key drawn rfl⟩,
    ⟨sound.pqOneTime.distinct, fun key mem drawn =>
      apart key (sound.pqOneTime.known key mem) key drawn rfl⟩⟩

theorem Sound.made
    {owner : SessionStore} (made : Made supply rest exchange.owner.prekeys owner.prekeys) :
    Sound { exchange with owner := owner, drawn := exchange.drawn ++ supply.ids } := by
  obtain ⟨_, distinct, apart⟩ := nodup_append.mp fresh
  have after := made.apart distinct (sound.allApart fresh)
  have new : ∀ key ∈ supply.ids, key ∉ exchange.drawn := fun key drawn old =>
    apart key old key drawn rfl
  exact ⟨sound.oneTime.renew made.oneTime after.oneTime.distinct new,
    sound.pqOneTime.renew made.pqOneTime after.pqOneTime.distinct new⟩

theorem Sound.publish
    (published : exchange.publish primitives identity nowMs supply saved = some next) :
    next.Sound := by
  obtain ⟨⟨⟨answer, _⟩, _⟩, made, rfl⟩ := Option.map_eq_some_iff.mp published
  obtain ⟨made, lists⟩ := prekeysForPublish_eq_some made
  have renewed := sound.made fresh made
  cases answer with
  | error => exact renewed
  | ok prekeys =>
    obtain ⟨oneTime, pqOneTime⟩ := lists prekeys rfl
    refine ⟨renewed.oneTime.publish ?_, renewed.pqOneTime.publish ?_⟩
    · rw [← oneTime, map_map]
      rfl
    rw [← pqOneTime, map_map]
    rfl

end

theorem Sound.receive (sound : exchange.Sound)
    (sender : UserId) (body : RatchetBody) (nowMs : Nat) (draws : RatchetDraws)
    (prekeysSaved saved : Bool) :
    (exchange.receive primitives identity sender body nowMs draws prekeysSaved saved).Sound := by
  have prekeys := prekeys_decrypt primitives exchange.owner identity sender body
    nowMs draws prekeysSaved saved
  unfold KeyExchange.receive
  cases completed : exchange.owner.completes primitives identity sender body draws with
  | none =>
    rw [completed] at prekeys
    refine ⟨?_, ?_⟩
    · rw [prekeys]
      exact sound.oneTime.establish (List.Sublist.refl _) nofun nofun
    rw [prekeys]
    exact sound.pqOneTime.establish (List.Sublist.refl _) nofun nofun
  | some keys =>
    rw [completed] at prekeys
    obtain ⟨_, named⟩ := named_of_completes completed
    obtain ⟨oneTime, pqOneTime⟩ := named_eq_ok named
    refine ⟨?_, ?_⟩
    · rw [prekeys]
      refine sound.oneTime.establish (spend_oneTime_sublist _ keys) ?_ ?_
      · intro id used
        obtain ⟨key, isKey, rfl⟩ := Option.map_eq_some_iff.mp used
        exact oneTime key isKey
      intro id used
      obtain ⟨key, isKey, rfl⟩ := Option.map_eq_some_iff.mp used
      exact spend_oneTime_gone sound.oneTime.distinct isKey
    rw [prekeys]
    have spent : ∀ id, (if keys.pqOneTime then keys.pq.map PqPrekeySecret.id else none) =
        some id → keys.pqOneTime = true ∧ ∃ key, keys.pq = some key ∧ key.id = id := by
      intro id used
      split at used
      next once => exact ⟨once, Option.map_eq_some_iff.mp used⟩
      next => cases used
    refine sound.pqOneTime.establish (spend_pqOneTime_sublist _ keys) ?_ ?_
    · intro id used
      obtain ⟨once, key, isKey, rfl⟩ := spent id used
      exact pqOneTime key isKey once
    intro id used
    obtain ⟨once, key, isKey, rfl⟩ := spent id used
    exact spend_pqOneTime_gone sound.pqOneTime.distinct isKey once

theorem Sound.step (sound : exchange.Sound) (fresh : exchange.FreshDraws move)
    (ran : exchange.step primitives identity move = some next) :
    next.Sound := by
  cases move with
  | publish nowMs supply saved => exact sound.publish fresh ran
  | status _ _ _ _ nowMs supply saved =>
    obtain ⟨⟨⟨_, _⟩, _⟩, applied, rfl⟩ := Option.map_eq_some_iff.mp ran
    exact sound.made fresh (made_applyPrekeyStatus applied)
  | receive sender body nowMs draws prekeysSaved saved =>
    cases ran
    exact sound.receive sender body nowMs draws prekeysSaved saved
  | set =>
    obtain ⟨oneTime, replaced, rfl⟩ := Option.map_eq_some_iff.mp ran
    exact ⟨sound.oneTime.set replaced, sound.pqOneTime⟩
  | lose index =>
    cases ran
    exact ⟨sound.oneTime.lose index, sound.pqOneTime⟩
  | take =>
    cases ran
    exact ⟨sound.oneTime.take, sound.pqOneTime⟩
  | setPq =>
    obtain ⟨pqOneTime, replaced, rfl⟩ := Option.map_eq_some_iff.mp ran
    exact ⟨sound.oneTime, sound.pqOneTime.set replaced⟩
  | losePq index =>
    cases ran
    exact ⟨sound.oneTime, sound.pqOneTime.lose index⟩
  | takePq =>
    cases ran
    exact ⟨sound.oneTime, sound.pqOneTime.take⟩

theorem sound_start (me : UserId) : (start me).Sound :=
  ⟨Handover.kept_empty _, Handover.kept_empty _⟩

end KeyExchange

/-- Every id on deposit or handed out is handed out once, none handed out is on deposit again,
and every key makes one session at most. -/
structure Handover.Single {Key : Type} (exchange : Handover Key) : Prop where
  served : exchange.served.Nodup
  gone : ∀ id ∈ exchange.served, id ∉ exchange.deposit.ids
  established : exchange.established.Nodup

theorem Handover.Kept.single {Key Secret : Type} {id : Secret → Nat} {own : List (Deposited Secret)}
    {exchange : Handover Key} (kept : exchange.Kept id drawn own) :
    exchange.Single :=
  ⟨kept.once.served_nodup, kept.once.apart, kept.established_nodup⟩

/-- For every owner starting with no keys, every interleaving of publishes (in order, some
lost), lookups, reports of the relay of any content and bodies from anyone, in which no random
number is drawn twice: no one-time key of either kind is handed out in two lookups, none that
was handed out is on deposit again, and each makes one session at most. -/
theorem one_time_keys_served_once (primitives : Primitives) (identity : Identity) (me : UserId)
    {moves : List KeyMove} {final : KeyExchange}
    (fresh : EachState (KeyExchange.step primitives identity) KeyExchange.FreshDraws
      (KeyExchange.start me) moves)
    (ended : run (KeyExchange.step primitives identity) (KeyExchange.start me) moves = some final) :
    final.oneTime.Single ∧ final.pqOneTime.Single := by
  have sound : final.Sound := fresh.run_keeps (KeyExchange.sound_start me)
    (fun _ _ _ sound fresh stepped => sound.step fresh stepped) ended
  exact ⟨sound.oneTime.single, sound.pqOneTime.single⟩

namespace OneTimeKeys

/-- Primitives that hide nothing. -/
def primitives : Primitives where
  verify := fun _ _ _ _ => true
  isKey := fun _ => true
  sha256 := fun _ => Bytes.fill 32 0
  publicKey := id
  diffieHellman := fun _ _ => Bytes.fill 32 1
  kemPublic := fun seed => seed.data
  encapsulate := fun _ _ => .ok ([], Bytes.fill 32 1)
  decapsulate := fun _ _ => .ok (Bytes.fill 32 1)
  hkdf := fun size _ _ _ => Bytes.fill size 0
  hmac := fun _ _ => Bytes.fill 32 0
  aeadSeal := fun _ _ message _ => some message
  aeadOpen := fun _ _ ciphertext _ => some ciphertext

def owner : Identity := ⟨Bytes.fill 32 1, fun _ _ => Bytes.fill 64 0, Bytes.fill 32 0, none⟩

def supply (ids : List Nat) : Supply :=
  ⟨ids, List.replicate 21 (Bytes.fill 32 0), List.replicate 11 (Bytes.fill 64 0)⟩

def early : List KeyMove :=
  [.publish 0 (supply (List.range' 1 32)) true, .set, .setPq, .take, .takePq,
    .status 19 [3] none [] 1 (supply []) true,
    .publish 2 (supply [33, 34, 35]) true, .set, .take]

def late : List KeyMove :=
  [.status 19 [4] none [] (ONE_TIME_RETENTION + 1) (supply []) true,
    .publish (ONE_TIME_RETENTION + 2) (supply [36, 37, 3]) true, .set, .take]

end OneTimeKeys

/-- Keys are handed out while the owner publishes. -/
theorem keys_handed_out : ((run (KeyExchange.step OneTimeKeys.primitives OneTimeKeys.owner)
        (KeyExchange.start OneTimeKeys.owner.userId) OneTimeKeys.early).any fun final =>
      decide (final.oneTime.served = [3, 4])) = true ∧
    ∀ final, run (KeyExchange.step OneTimeKeys.primitives OneTimeKeys.owner)
        (KeyExchange.start OneTimeKeys.owner.userId) OneTimeKeys.early = some final →
      final.oneTime.Single ∧ final.pqOneTime.Single :=
  ⟨by decide +kernel, fun _ ended => one_time_keys_served_once OneTimeKeys.primitives
    OneTimeKeys.owner OneTimeKeys.owner.userId (by decide +kernel) ended⟩

/-- An id that is drawn again after its key was forgotten is handed out again. -/
theorem id_handed_out_twice : ((run (KeyExchange.step OneTimeKeys.primitives OneTimeKeys.owner)
        (KeyExchange.start OneTimeKeys.owner.userId)
        (OneTimeKeys.early ++ OneTimeKeys.late)).any fun final =>
      decide (final.oneTime.served = [3, 4, 3])) = true := by
  decide +kernel

end Silver.System
