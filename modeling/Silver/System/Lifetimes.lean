import Silver.System.OneTimeKeys

/-!
# How long prekeys and sessions are kept

Three rules of the session store meet another party: a refused encryption touches the rows of
other peers, a signed prekey is dropped by its owner while initiators still accept it, and
one-time keys are kept after the relay says they were handed out.
-/

namespace Silver.Client

open Foundation Protocol PrekeyFile SessionStore
open List hiding after count tail head take rotate all keys set

section Rotation

variable {Key : Type} {createdAtMs : Key -> Nat} {keys after : List Key} {key : Key}

/-- Newest first. -/
def Ordered (createdAtMs : Key -> Nat) (keys : List Key) : Prop :=
  keys.Pairwise fun newer older => createdAtMs older <= createdAtMs newer

/-- Whether a key is young enough to be kept. -/
def lasts (createdAtMs : Key -> Nat) (nowMs : Nat) (key : Key) : Bool :=
  nowMs - createdAtMs key < SIGNED_PREKEY_RETENTION

theorem lasts_iff :
    lasts createdAtMs nowMs key ↔ nowMs < createdAtMs key + SIGNED_PREKEY_RETENTION := by
  rw [lasts, decide_eq_true_eq]
  unfold SIGNED_PREKEY_RETENTION
  omega

theorem takeWhile_lasts (ordered : Ordered createdAtMs keys) :
    keys.takeWhile (lasts createdAtMs nowMs) = keys.filter (lasts createdAtMs nowMs) := by
  induction ordered with
  | nil => rfl
  | @cons head tail older _ ih =>
    by_cases young : lasts createdAtMs nowMs head
    · simp [young, ih]
    have none : ∀ old ∈ tail, ¬ lasts createdAtMs nowMs old := by
      intro old mem
      have := older old mem
      rw [lasts_iff] at *
      omega
    simp [young, filter_eq_nil_iff.mpr none]

theorem retained_eq (ordered : Ordered createdAtMs (key :: keys))
    (young : lasts createdAtMs nowMs key) :
    retained createdAtMs (key :: keys) nowMs = (key :: keys).filter (lasts createdAtMs nowMs) := by
  have some : 1 <= ((key :: keys).takeWhile (lasts createdAtMs nowMs)).length := by simp [young]
  rw [← takeWhile_lasts ordered]
  refine Eq.trans ?_ (prefix_iff_eq_take.mp ( takeWhile_prefix _)).symm
  exact congrArg (List.take · (key :: keys)) (Nat.max_eq_left some)

/-- After a rotation the keys are still newest first, and those stay that are young enough. -/
structure Turned (createdAtMs : Key -> Nat) (nowMs : Nat) (keys after : List Key) : Prop where
  ordered : Ordered createdAtMs after
  kept : ∀ key ∈ keys, key ∈ after ↔ lasts createdAtMs nowMs key

theorem turned_retained (ordered : Ordered createdAtMs (key :: keys))
    (young : lasts createdAtMs nowMs key) (sub : old ⊆ key :: keys) :
    Turned createdAtMs nowMs old (retained createdAtMs (key :: keys) nowMs) := by
  rw [retained_eq ordered young]
  exact ⟨ordered.sublist filter_sublist, fun other mem => by simp [sub mem]⟩

theorem turned_of_rotate {fresh : Draw Key} (ordered : Ordered createdAtMs keys)
    (dated : ∀ {supply key rest}, fresh supply = some (key, rest) -> createdAtMs key = nowMs)
    (turned : rotate createdAtMs fresh keys nowMs supply = some (after, rest)) :
    Turned createdAtMs nowMs keys after := by
  obtain ⟨_, _, added, cut⟩ := draw_bind_eq_some.mp turned
  obtain ⟨rfl, rfl⟩ := draw_pure_eq_some.mp cut
  unfold renew at added
  split at added
  case isTrue due =>
    obtain ⟨key, _, drawn, put⟩ := draw_bind_eq_some.mp added
    obtain ⟨rfl, rfl⟩ := draw_pure_eq_some.mp put
    obtain rfl := dated drawn
    have newest : Ordered createdAtMs (key :: keys) := by
      refine .cons (fun old mem => ?_) ordered
      cases keys with
      | nil => cases mem
      | cons head tail =>
        have age : createdAtMs head <= createdAtMs key := by
          simp [SIGNED_PREKEY_ROTATION] at due
          omega
        rcases mem_cons.mp mem with rfl | later
        · exact age
        · exact ((pairwise_cons.mp ordered).1 old later).trans age
    exact turned_retained newest (by simp [lasts, SIGNED_PREKEY_RETENTION]) (subset_cons_self _ _)
  case isFalse early =>
    obtain ⟨rfl, rfl⟩ := draw_pure_eq_some.mp added
    cases keys with
    | nil => exact absurd rfl early
    | cons head tail =>
      refine turned_retained ordered (decide_eq_true ?_) (List.Subset.refl _)
      simp [SIGNED_PREKEY_ROTATION] at early
      unfold SIGNED_PREKEY_RETENTION
      omega

end Rotation

section HandedOut

variable {Key : Type}

/-- When the keys that are no longer on deposit were handed out. -/
def moments (deposit : List (Deposited Key)) : List Nat :=
  deposit.filterMap Deposited.handedOutAtMs

def unexpired (nowMs : Nat) (times : List Nat) : List Nat :=
  times.filter fun time => nowMs - time < ONE_TIME_RETENTION

/-- The moment at which the keys to be kept start. -/
def cutoff (times : List Nat) : Nat :=
  ((times.insertionSort (· <= ·))[times.length - MAX_HANDED_OUT_KEPT]?).getD 0

/-- What `forgetStale` leaves of the moments. -/
def recent (nowMs : Nat) (times : List Nat) : List Nat :=
  let kept := unexpired nowMs times
  if kept.length > MAX_HANDED_OUT_KEPT then kept.filter (· ≥ cutoff kept) else kept

theorem moments_filter (test : Nat -> Bool) (deposit : List (Deposited Key)) :
    moments (deposit.filter fun deposited => deposited.handedOutAtMs.all test) =
      (moments deposit).filter test := by
  rw [moments, moments, filter_filterMap, filterMap_filter]
  congr 1
  funext deposited
  cases deposited.handedOutAtMs with
  | none => rfl
  | some => rfl

theorem moments_forgetStale (deposit : List (Deposited Key)) (nowMs : Nat) :
    moments (forgetStale deposit nowMs) = recent nowMs (moments deposit) := by
  let kept := deposit.filter fun deposited =>
    deposited.handedOutAtMs.all fun moment => nowMs - moment < ONE_TIME_RETENTION
  have times : moments kept = unexpired nowMs (moments deposit) := moments_filter _ _
  unfold recent
  simp only [← times]
  rw [← moments_filter]
  exact apply_ite moments _ _ _

theorem length_recent_le (nowMs : Nat) (times : List Nat) :
    (recent nowMs times).length <= times.length := by
  unfold recent unexpired
  simp only
  split
  · exact (length_filter_le _ _).trans (length_filter_le _ _)
  · exact length_filter_le _ _

/-- The cut falls between two moments: none before it is that of the first key kept. -/
def Untied (times : List Nat) : Prop :=
  cutoff times ∉ (times.insertionSort (· <= ·)).take (times.length - MAX_HANDED_OUT_KEPT)

theorem countP_le_iff {front rest : List Nat} {cut : Nat} (sorted : (front ++ cut :: rest).Pairwise (· <= ·)) :
    (front ++ cut :: rest).countP (· ≥ cut) <= rest.length + 1 ↔ cut ∉ front := by
  obtain ⟨_, behind, across⟩ := pairwise_append.mp sorted
  have all : (cut :: rest).countP (· ≥ cut) = rest.length + 1 := by
    refine countP_eq_length.mpr fun time mem => decide_eq_true ?_
    rcases mem_cons.mp mem with rfl | later
    · omega
    · exact (pairwise_cons.mp behind).1 time later
  have before : front.countP (· ≥ cut) = 0 ↔ cut ∉ front := by
    rw [countP_eq_zero]
    constructor
    · intro none mem
      exact none cut mem (decide_eq_true .refl)
    intro absent time mem late
    have early := across time mem cut (.head _)
    exact absent (Nat.le_antisymm (of_decide_eq_true late) early ▸ mem)
  rw [countP_append, all, ← before]
  omega

theorem length_recent_le_iff (nowMs : Nat) (times : List Nat) :
    (recent nowMs times).length <= MAX_HANDED_OUT_KEPT ↔ Untied (unexpired nowMs times) := by
  unfold recent
  simp only
  generalize unexpired nowMs times = kept
  split
  case isFalse few =>
    have none : kept.length - MAX_HANDED_OUT_KEPT = 0 := by omega
    simp [Untied, none]
    omega
  case isTrue many =>
    have sorted := pairwise_insertionSort (· <= ·) kept
    have same := perm_insertionSort (· <= ·) kept
    generalize order : kept.insertionSort (· <= ·) = times at sorted same
    have inside : kept.length - MAX_HANDED_OUT_KEPT < times.length := by
      rw [same.length_eq]
      unfold MAX_HANDED_OUT_KEPT ONE_TIME_TARGET at *
      omega
    have first : cutoff kept = times[kept.length - MAX_HANDED_OUT_KEPT] := by
      simp [cutoff, order, getElem?_eq_getElem inside]
    have parts : times = times.take (kept.length - MAX_HANDED_OUT_KEPT) ++ cutoff kept ::
        times.drop (kept.length - MAX_HANDED_OUT_KEPT + 1) := by
      rw [first, ← drop_eq_getElem_cons inside, take_append_drop]
    rw [parts] at sorted
    rw [Untied, order, ← countP_eq_length_filter, ← same.countP_eq, ← countP_le_iff sorted,
      ← parts, length_drop, same.length_eq]
    unfold MAX_HANDED_OUT_KEPT ONE_TIME_TARGET at *
    rw [show kept.length - (kept.length - 4 * 20 + 1) + 1 = 4 * 20 by omega]

theorem forgetStale_drops_oldest {deposit : List (Deposited Key)} {dropped kept : Deposited Key}
    (was : dropped ∈ deposit) (gone : dropped ∉ forgetStale deposit nowMs)
    (stays : kept ∈ forgetStale deposit nowMs) :
    ∀ early ∈ dropped.handedOutAtMs, ∀ late ∈ kept.handedOutAtMs, early <= late := by
  intro early asked late given
  rw [Option.mem_def] at asked given
  unfold forgetStale at gone stays
  simp only at gone stays
  split at stays
  case isTrue many =>
    simp [many, was, asked, given] at gone stays
    omega
  case isFalse few =>
    simp [few, was, asked, given] at gone stays
    omega

end HandedOut

namespace PrekeyFile

/-- The signed keys, and when one-time keys were handed out. -/
def standing (file : PrekeyFile) :
    (List PrekeySecret × List PqPrekeySecret) × List Nat × List Nat :=
  ((file.signed, file.pqSigned), moments file.oneTime, moments file.pqOneTime)

theorem standing_addEach {add : PrekeyFile -> Draw PrekeyFile}
    (one : ∀ {file supply more rest}, add file supply = some (more, rest) ->
      more.standing = file.standing)
    (added : addEach add count file supply = some (after, rest)) :
    after.standing = file.standing := by
  induction count generalizing file supply with
  | zero => rw [(draw_pure_eq_some.mp added).1]
  | succ count ih =>
    obtain ⟨more, _, put, added⟩ := draw_bind_eq_some.mp added
    exact (ih added).trans (one put)

theorem standing_topUps :
    (topUpOneTime nowMs file supply = some (after, rest) -> after.standing =
      (file.standing.1, recent nowMs (moments file.oneTime), moments file.pqOneTime)) ∧
    (topUpPqOneTime nowMs file supply = some (after, rest) -> after.standing =
      (file.standing.1, moments file.oneTime, recent nowMs (moments file.pqOneTime))) := by
  rw [← moments_forgetStale, ← moments_forgetStale]
  constructor <;> refine fun filled => (standing_addEach (fun added => ?_) filled).trans rfl
  all_goals
    obtain ⟨_, _, _, added⟩ := draw_bind_eq_some.mp added
    obtain ⟨_, _, _, added⟩ := draw_bind_eq_some.mp added
    rw [← (draw_pure_eq_some.mp added).1]
    simp [standing, moments]

/-- A file whose signed keys of both kinds are newest first. -/
def BothOrdered (file : PrekeyFile) : Prop :=
  Ordered PrekeySecret.createdAtMs file.signed ∧ Ordered PqPrekeySecret.createdAtMs file.pqSigned

theorem turned_refresh (refreshed : refresh nowMs file supply = some (after, rest)) :
    (file.BothOrdered -> Turned PrekeySecret.createdAtMs nowMs file.signed after.signed ∧
        Turned PqPrekeySecret.createdAtMs nowMs file.pqSigned after.pqSigned) ∧
      after.standing.2 =
        (recent nowMs (moments file.oneTime), recent nowMs (moments file.pqOneTime)) := by
  obtain ⟨_, _, _, refreshed⟩ := draw_bind_eq_some.mp refreshed
  obtain ⟨signed, _, turned, refreshed⟩ := draw_bind_eq_some.mp refreshed
  obtain ⟨_, _, _, refreshed⟩ := draw_bind_eq_some.mp refreshed
  obtain ⟨pqSigned, _, pqTurned, refreshed⟩ := draw_bind_eq_some.mp refreshed
  obtain ⟨_, _, filled, refreshed⟩ := draw_bind_eq_some.mp refreshed
  have first := standing_topUps.1 filled
  have second := standing_topUps.2 refreshed
  simp only [standing, Prod.mk.injEq] at first second
  simp only [standing, second, first]
  refine ⟨fun ordered => ⟨turned_of_rotate ordered.1 (fun drawn => ?_) turned,
    turned_of_rotate ordered.2 (fun drawn => ?_) pqTurned⟩, trivial⟩
  all_goals
    obtain ⟨_, _, _, put⟩ := draw_bind_eq_some.mp drawn
    rw [← (draw_pure_eq_some.mp put).1]

/-- A refresh at a moment, with what it draws. -/
def turn (file : PrekeyFile) (moment : Nat × Supply) : Option PrekeyFile :=
  (file.refresh moment.1 moment.2).map Prod.fst

/-- What a published file offers for handshakes is still there. -/
def Serves (published file : PrekeyFile) : Prop :=
  (∀ key ∈ published.signed.head?, key ∈ file.signed) ∧
    ∀ key ∈ published.pqSigned.head?, key ∈ file.pqSigned

/-- A rotation that drops neither signed key while initiators may accept them: it is not at the
very end of the retention, and before the end of that of the ML-KEM key. -/
def Spares (published : PrekeyFile) (moment : Nat × Supply) : Prop :=
  (∀ key ∈ published.signed.head?, moment.1 ≠ key.createdAtMs + SIGNED_PREKEY_RETENTION) ∧
    ∀ key ∈ published.pqSigned.head?, moment.1 < key.createdAtMs + SIGNED_PREKEY_RETENTION

theorem turn_eq_some (ran : turn file moment = some after) :
    ∃ rest, file.refresh moment.1 moment.2 = some (after, rest) := by
  obtain ⟨⟨_, rest⟩, refreshed, rfl⟩ := Option.map_eq_some_iff.mp ran
  exact ⟨rest, refreshed⟩

theorem BothOrdered.turn (ordered : file.BothOrdered) (ran : turn file moment = some after) :
    after.BothOrdered := by
  obtain ⟨_, refreshed⟩ := turn_eq_some ran
  have turned := (turned_refresh refreshed).1 ordered
  exact ⟨turned.1.ordered, turned.2.ordered⟩

/-- While initiators accept a published bundle, its owner has the secrets of both signed
prekeys in every state reached exactly if every rotation spares them. -/
theorem accepted_prekeys_served_iff {file after : PrekeyFile} {moments : List (Nat × Supply)}
    (ordered : file.BothOrdered)
    (accepted : staleDays (file.publicPrekeys primitives identity) nowMs = none)
    (upTo : ∀ moment ∈ moments, moment.1 ≤ nowMs) (ran : run turn file moments = some after) :
    (∀ state, Reached turn file moments state → file.Serves state) ↔
      EachState turn (fun _ => file.Spares) file moments := by
  have fresh : ∀ key ∈ file.signed.head?, nowMs <= key.createdAtMs + SIGNED_PREKEY_RETENTION := by
    intro key head
    rw [Option.mem_def] at head
    simp [staleDays, publicPrekeys, head, PrekeySecret.signedBy] at accepted
    omega
  have sorted : ∀ state, Reached turn file moments state -> state.BothOrdered := by
    rintro state ⟨_, _, reached⟩
    exact run_keeps ordered (fun _ _ _ holds => holds.turn) reached
  let good := fun state => state.BothOrdered ∧ file.Serves state
  have start : good file := ⟨ordered, fun _ => mem_of_mem_head?, fun _ => mem_of_mem_head?⟩
  have exactly : ∀ moment ∈ moments, ∀ state next, good state -> turn state moment = some next ->
      (good next ↔ file.Spares moment) := by
    rintro moment mem state next ⟨holds, serves⟩ stepped
    obtain ⟨_, refreshed⟩ := turn_eq_some stepped
    have turned := (turned_refresh refreshed).1 holds
    have reached := upTo moment mem
    refine (and_iff_right (holds.turn stepped)).trans
      (and_congr (forall₂_congr fun key head => ?_) (forall₂_congr fun key head => ?_))
    · have recent := fresh key head
      rw [turned.1.kept key (serves.1 key head), lasts_iff]
      omega
    · rw [turned.2.kept key (serves.2 key head), lasts_iff]
  rw [← EachState.iff_reached start exactly ran]
  exact forall₂_congr fun state reached => (and_iff_right (sorted state reached)).symm

open System.OneTimeKeys

namespace Boundary

def file : PrekeyFile := ⟨[⟨1, .fill 32 0, 0⟩], [], [⟨2, .fill 64 0, 0⟩], []⟩

/-- A refresh with thirty-two fresh ids. -/
def moment (nowMs : Nat) : Nat × Supply := (nowMs, supply (List.range' 3 32))

end Boundary

theorem prekeys_served_within_a_week : ∃ after,
    run turn Boundary.file [Boundary.moment 5] = some after ∧
      ((∀ state, Reached turn Boundary.file [Boundary.moment 5] state →
          Boundary.file.Serves state) ↔
        EachState turn (fun _ => Boundary.file.Spares) Boundary.file [Boundary.moment 5]) := by
  obtain ⟨after, ran⟩ := Option.isSome_iff_exists.mp
    (by decide +kernel : (run turn Boundary.file [Boundary.moment 5]).isSome)
  refine ⟨after, ran, accepted_prekeys_served_iff ⟨pairwise_singleton _ _, pairwise_singleton _ _⟩
    (by decide +kernel : staleDays (Boundary.file.publicPrekeys primitives owner) 5 = none)
    (by simp [Boundary.moment]) ran⟩

/-- At the last instant at which a prekey is accepted, a rotation drops it. -/
theorem accepted_prekey_dropped :
    staleDays (Boundary.file.publicPrekeys primitives owner) SIGNED_PREKEY_RETENTION = none ∧
      (turn Boundary.file (Boundary.moment SIGNED_PREKEY_RETENTION)).any fun after =>
        Boundary.file.signed.head?.any (· ∉ after.signed) := by
  decide +kernel

end PrekeyFile

namespace SessionStore

section Refused

variable {primitives : Primitives} {identity : Identity} {peer : KeyBundle}
  {plaintext : List UInt8} {draws : HandshakeDraws} {store : SessionStore}

/-- The store once room is made for a peer and its row is there. -/
def entered (store : SessionStore) (user : UserId) (nowMs : Nat) : SessionStore :=
  (store.makeRoom user nowMs).withSessions user ((store.makeRoom user nowMs).sessionsWith user)

theorem saving_eq_error {result : α} (failed : saving saved result = .error why) :
    why = .storage := by
  cases saved <;> cases failed
  rfl

/-- Every refusal but that of the disk comes with the peer entered and nothing else done. -/
theorem eq_entered_of_encrypt
    (failed : encrypt primitives store identity peer plaintext nowMs draws saved =
      (.error why, after)) (unstored : why ≠ .storage) :
    after = store.entered peer.userId nowMs := by
  have refused : ∀ {result : Except SessionError RatchetBody} {state : SessionStore},
      (result, state) = (.error why, after) -> after = state := by
    intro result state same
    exact (Prod.mk.inj same).2.symm
  have kept : ∀ {body : RatchetBody} {state : SessionStore},
      (saving saved body, state) ≠ (.error why, after) := by
    intro body state same
    exact unstored (saving_eq_error (Prod.mk.inj same).1)
  simp only [encrypt] at failed
  split at failed
  · split at failed
    · exact refused failed
    · exact absurd failed kept
  split at failed
  · exact refused failed
  split at failed
  · exact refused failed
  unfold startSession at failed
  split at failed
  · exact refused failed
  · exact absurd failed kept

theorem lookup_entered_of_mem (held : user ∈ store.peers) (other : UserId) :
    (store.entered user nowMs).peers.lookup other = store.peers.lookup other := by
  obtain ⟨_, found⟩ := Option.isSome_iff_exists.mp (AList.lookup_isSome.mpr held)
  simp only [entered, makeRoom, if_pos held, withSessions, sessionsWith, found, Option.getD_some]
  by_cases same : other = user
  · rw [same, AList.lookup_insert, found]
  · exact AList.lookup_insert_ne same

/-- Where encrypting is refused, the sessions with every peer are as they were exactly if the
peer written to had a row before. -/
theorem refused_encrypt_keeps_sessions_iff
    (failed : encrypt primitives store identity peer plaintext nowMs draws saved =
      (.error why, after)) (unstored : why ≠ .storage) :
    (∀ other, after.peers.lookup other = store.peers.lookup other) ↔ peer.userId ∈ store.peers := by
  rw [eq_entered_of_encrypt failed unstored]
  constructor
  · intro same
    rw [← AList.lookup_isSome, ← same]
    simp [entered, withSessions]
  · exact lookup_entered_of_mem

end Refused

open System.OneTimeKeys

namespace Refusal

def zero : Bytes 32 := .fill 32 0

def friend : PeerSession :=
  ⟨⟨.fill _ 0, [], zero, zero, none, zero, none, none, 0, 0, 0, [], false, false, none, none, none,
    none⟩, zero, 0, 0, none, true⟩

/-- A store with one session, last used at the beginning. -/
def store : SessionStore := ⟨zero, ⟨[], [], [], []⟩, AList.singleton zero [friend], []⟩

/-- A bundle without prekeys. -/
def bundle (user : UInt8) : KeyBundle :=
  ⟨.fill 32 user, zero, .fill 64 0, none, [], none, [], none, none⟩

def refused (user : UInt8) : Except SessionError RatchetBody × SessionStore :=
  encrypt primitives store owner (bundle user) [] (SESSION_RETENTION + 1)
    ⟨zero, zero, .fill 64 0, zero⟩ true

end Refusal

theorem refused_encrypt_to_friend :
    (∀ other, (Refusal.refused 0).2.peers.lookup other = Refusal.store.peers.lookup other) ↔
      (Refusal.bundle 0).userId ∈ Refusal.store.peers :=
  have failed : (Refusal.refused 0).1 = .error .noPrekeys := by decide +kernel
  refused_encrypt_keeps_sessions_iff (Prod.ext failed rfl) (by decide)

/-- A bundle without prekeys costs a friend not written to for half a year their session. -/
theorem refused_encrypt_drops_friend :
    (Refusal.refused 1).1 = .error .noPrekeys ∧ (Refusal.store.peers.lookup Refusal.zero).isSome ∧
      (Refusal.refused 1).2.peers.lookup Refusal.zero = none := by
  decide +kernel

/-- Whether a report makes the owner draw up fresh keys. -/
def topsUp (store : SessionStore) (oneTimeRemaining : Nat) (pqOneTimeRemaining : Option Nat)
    (nowMs : Nat) : Bool :=
  (oneTimeRemaining < ONE_TIME_MIN || pqOneTimeRemaining.any (· < PQ_ONE_TIME_MIN)) &&
    (store.mayTopUp nowMs).1

theorem standing_applyPrekeyStatus {store after : SessionStore} {answer : Except SessionError Bool}
    (applied : store.applyPrekeyStatus remaining consumed pqRemaining pqConsumed nowMs saved drawn =
      some ((answer, after), rest)) :
    let noted := store.noteHandedOut consumed pqConsumed nowMs
    after.prekeys.standing.2 = if noted.topsUp remaining pqRemaining nowMs then
        (recent nowMs (moments noted.prekeys.oneTime), recent nowMs (moments noted.prekeys.pqOneTime))
      else noted.prekeys.standing.2 := by
  unfold applyPrekeyStatus at applied
  generalize store.noteHandedOut consumed pqConsumed nowMs = noted at applied
  simp only [topsUp] at applied ⊢
  by_cases low : (decide (remaining < ONE_TIME_MIN) ||
      pqRemaining.any fun left => decide (left < PQ_ONE_TIME_MIN)) = true
  · simp only [low, ↓reduceIte, Bool.true_and] at applied ⊢
    split at applied
    case isTrue may =>
      obtain ⟨_, _, filled, applied⟩ := draw_bind_eq_some.mp applied
      obtain ⟨_, _, pqFilled, applied⟩ := draw_bind_eq_some.mp applied
      cases (draw_pure_eq_some.mp applied).1
      have first := standing_topUps.1 filled
      have second := standing_topUps.2 pqFilled
      simp only [standing, prekeys_mayTopUp, Prod.mk.injEq] at first second
      simp [standing, may, first, second]
    case isFalse may =>
      cases (draw_pure_eq_some.mp applied).1
      simp [may]
  simp only [low] at applied ⊢
  cases (draw_pure_eq_some.mp applied).1
  rfl

end SessionStore

namespace PrekeyFile

/-- No more one-time keys of either kind are kept after they were handed out than should be. -/
def Within (file : PrekeyFile) : Prop :=
  (moments file.oneTime).length <= MAX_HANDED_OUT_KEPT ∧
    (moments file.pqOneTime).length <= MAX_HANDED_OUT_KEPT

end PrekeyFile

end Silver.Client

namespace Silver.System.KeyExchange

open Foundation Protocol Client SessionStore PrekeyFile OneTimeKeys

/-- A report that stays within the bound: it marks few enough keys, or fresh ones are drawn up
and no key handed out with the first one kept is cut off. -/
def Fits (exchange : KeyExchange) : KeyMove -> Prop
  | .status remaining consumed pqRemaining pqConsumed nowMs _ _ =>
    let noted := exchange.owner.noteHandedOut consumed pqConsumed nowMs
    if noted.topsUp remaining pqRemaining nowMs then
      Untied (unexpired nowMs (moments noted.prekeys.oneTime)) ∧
        Untied (unexpired nowMs (moments noted.prekeys.pqOneTime))
    else noted.prekeys.Within
  | _ => True

theorem within_step_iff {primitives : Primitives} {identity : Identity} {exchange next : KeyExchange}
    {move : KeyMove} (within : exchange.owner.prekeys.Within)
    (ran : exchange.step primitives identity move = some next) :
    next.owner.prekeys.Within ↔ exchange.Fits move := by
  cases move with
  | publish nowMs supply saved =>
    obtain ⟨⟨⟨_, owner⟩, rest⟩, made, rfl⟩ := Option.map_eq_some_iff.mp ran
    obtain ⟨file, _, refreshed, made⟩ := draw_bind_eq_some.mp made
    obtain ⟨prekeys, _, _, made⟩ := draw_bind_eq_some.mp made
    cases (draw_pure_eq_some.mp made).1
    obtain ⟨first, second⟩ := Prod.mk.inj (turned_refresh refreshed).2
    refine iff_true_intro ?_
    have kept : file.Within := by
      rw [Within, first, second]
      exact ⟨(length_recent_le _ _).trans within.1, (length_recent_le _ _).trans within.2⟩
    cases saved <;> exact kept
  | status _ _ _ _ nowMs supply saved =>
    obtain ⟨⟨⟨_, owner⟩, rest⟩, applied, rfl⟩ := Option.map_eq_some_iff.mp ran
    have stands := standing_applyPrekeyStatus applied
    simp only [Fits] at stands ⊢
    split at stands
    all_goals
      obtain ⟨first, second⟩ := Prod.mk.inj stands
      rw [Within, first, second]
    case isTrue tops => rw [if_pos tops, length_recent_le_iff, length_recent_le_iff]
    case isFalse tops =>
      rw [if_neg tops]
      rfl
  | receive sender body nowMs draws _ saved =>
    cases ran
    refine iff_true_intro ?_
    simp only [receive, prekeys_decrypt]
    cases exchange.owner.completes primitives identity sender body draws with
    | none => exact within
    | some keys =>
      exact ⟨((spend_oneTime_sublist _ keys).filterMap _).length_le.trans within.1,
        ((spend_pqOneTime_sublist _ keys).filterMap _).length_le.trans within.2⟩
  | set | setPq =>
    obtain ⟨_, _, rfl⟩ := Option.map_eq_some_iff.mp ran
    exact iff_true_intro within
  | lose | losePq | take | takePq =>
    cases ran
    exact iff_true_intro within

/-- In every state of a run no more keys handed out are kept than should be exactly if every
report fits, and what is forgotten was never handed out after what is kept. -/
theorem handed_out_keys_bounded_iff (primitives : Primitives) (identity : Identity) (me : UserId)
    (ran : run (step primitives identity) (start me) moves = some final) :
    ((∀ exchange, Reached (step primitives identity) (start me) moves exchange →
        exchange.owner.prekeys.Within) ↔
      EachState (step primitives identity) Fits (start me) moves) ∧
    ∀ {Key : Type} {deposit : List (Deposited Key)} {nowMs : Nat} {dropped kept : Deposited Key},
      dropped ∈ deposit → dropped ∉ forgetStale deposit nowMs → kept ∈ forgetStale deposit nowMs →
      ∀ early ∈ dropped.handedOutAtMs, ∀ late ∈ kept.handedOutAtMs, early ≤ late := by
  have empty : (start me).owner.prekeys.Within := ⟨Nat.zero_le _, Nat.zero_le _⟩
  refine ⟨EachState.iff_reached empty (fun move _ exchange next within ran => ?_) ran,
    forgetStale_drops_oldest⟩
  exact within_step_iff within ran

/-- A relay says four times that all keys are gone, and a fifth time that none are. -/
def claims : List KeyMove :=
  .publish 0 (supply (List.range' 1 32)) true ::
    (List.range 4).map (fun time =>
      .status 0 (List.range 200) none [] time (supply (List.range' (33 + 20 * time) 20)) true) ++
    [.status 20 (List.range 200) none [] 4 (supply []) true]

def blank : KeyExchange := start (.fill 32 0)

def told : KeyExchange -> KeyMove -> Option KeyExchange :=
  step primitives OneTimeKeys.owner

theorem claims_bounded_iff : ∃ final, run told blank claims = some final ∧
    ((∀ exchange, Reached told blank claims exchange → exchange.owner.prekeys.Within) ↔
      EachState told Fits blank claims) := by
  obtain ⟨final, ran⟩ := Option.isSome_iff_exists.mp
    (by decide +kernel : (run told blank claims).isSome)
  exact ⟨final, ran, (handed_out_keys_bounded_iff primitives _ _ ran).1⟩

theorem claims_keep_hundred : (run told blank claims).any fun exchange =>
    (moments exchange.owner.prekeys.oneTime).length = 100 := by
  decide +kernel

end Silver.System.KeyExchange
