import Silver.Client.Sessions.Defs

/-!
# One-time keys in the session store

What a call does to the one-time keys of either kind is said once: keys stay, go, or are
marked as handed out, and those that are new have ids drawn in that call.  So a key that is
off the list to publish does not come back under its id, unless its id is drawn again.
-/

namespace Silver.Client

open Foundation Protocol PrekeyFile
open List hiding after count tail head rotate keys

section Drawing

theorem draw_bind_eq_some {first : Draw α} {next : α → Draw β} :
    (first >>= next) supply = some (result, rest) ↔
      ∃ given middle, first supply = some (given, middle) ∧
        next given middle = some (result, rest) := by
  simp [bind, StateT.bind, Option.bind_eq_some_iff]

theorem draw_pure_eq_some :
    (pure value : Draw α) supply = some (result, rest) ↔ value = result ∧ supply = rest := by
  simp [pure, StateT.pure]

theorem firstFree_eq_some {ids others : List Nat} {id : Nat}
    (found : firstFree taken ids = some (id, others)) :
    ∃ passed, ids = passed ++ id :: others := by
  induction ids with
  | nil => cases found
  | cons head _ ih =>
    rw [firstFree] at found
    split at found
    · obtain ⟨passed, rfl⟩ := ih found
      exact ⟨head :: passed, rfl⟩
    cases found
    exact ⟨[], rfl⟩

theorem freshId_eq_some
    {file : PrekeyFile} {id : Nat} (drawn : freshId file supply = some (id, rest)) :
    ∃ passed, supply.ids = passed ++ id :: rest.ids := by
  obtain ⟨⟨_, _⟩, found, same⟩ := Option.map_eq_some_iff.mp drawn
  cases same
  exact firstFree_eq_some found

theorem drawSecret_ids (drawn : drawSecret supply = some (secret, rest)) :
    rest.ids = supply.ids := by
  unfold drawSecret at drawn
  split at drawn
  · cases drawn
  obtain ⟨_, rfl⟩ := Prod.mk.inj (Option.some.inj drawn)
  rfl

theorem drawSeed_ids (drawn : drawSeed supply = some (seed, rest)) : rest.ids = supply.ids := by
  unfold drawSeed at drawn
  split at drawn
  · cases drawn
  obtain ⟨_, rfl⟩ := Prod.mk.inj (Option.some.inj drawn)
  rfl

end Drawing

section Kinds

variable (id : Key → Nat)

def idsOf (deposit : List (Deposited Key)) : List Nat :=
  deposit.map fun deposited => id deposited.key

def offered (deposit : List (Deposited Key)) : List Nat :=
  idsOf id (deposit.filter Deposited.onDeposit)

/-- One-time keys are those there were, no more of them published, and new ones. -/
structure Renewed (fresh : List Nat) (before after : List (Deposited Key)) : Prop where
  known : ∀ key ∈ idsOf id after, key ∈ idsOf id before ∨ key ∈ fresh
  offers : ∀ key ∈ offered id after, key ∈ offered id before ∨ key ∈ fresh

/-- The ids of one-time keys are distinct, and none is about to be drawn. -/
structure Apart (deposit : List (Deposited Key)) (pool : List Nat) : Prop where
  distinct : (idsOf id deposit).Nodup
  apart : ∀ key ∈ idsOf id deposit, key ∉ pool

variable {id}

theorem mem_idsOf_of_offered {key : Nat} (mem : key ∈ offered id deposit) :
    key ∈ idsOf id deposit :=
  (filter_sublist.map _).subset mem

theorem Renewed.refl (id : Key → Nat) (fresh : List Nat) (deposit : List (Deposited Key)) :
    Renewed id fresh deposit deposit :=
  ⟨fun _ => .inl, fun _ => .inl⟩

theorem Renewed.trans (first : Renewed id fresh before middle)
    (second : Renewed id fresh middle after) :
    Renewed id fresh before after where
  known := fun key mem => (second.known key mem).elim (first.known key) .inr
  offers := fun key mem => (second.offers key mem).elim (first.offers key) .inr

theorem Renewed.mono (renewed : Renewed id fresh before after) (within : fresh ⊆ more) :
    Renewed id more before after where
  known := fun key mem => (renewed.known key mem).imp_right (@within key)
  offers := fun key mem => (renewed.offers key mem).imp_right (@within key)

theorem Renewed.of_sublist (fewer : after.Sublist before) : Renewed id fresh before after where
  known := fun _ mem => .inl ((fewer.map _).subset mem)
  offers := fun _ mem => .inl (((fewer.filter _).map _).subset mem)

theorem Apart.of_sublist (apart : Apart id before pool) (fewer : after.Sublist before) :
    Apart id after pool where
  distinct := apart.distinct.sublist (fewer.map _)
  apart := fun key mem => apart.apart key ((fewer.map _).subset mem)

theorem Apart.mono {others : List Nat} (apart : Apart id deposit pool) (within : others ⊆ pool) :
    Apart id deposit others :=
  ⟨apart.distinct, fun key mem drawn => apart.apart key mem (within drawn)⟩

theorem Apart.snoc {others : List Nat} {new : Deposited Key}
    (apart : Apart id deposit (passed ++ id new.key :: others))
    (distinct : (passed ++ id new.key :: others).Nodup) :
    Apart id (deposit ++ [new]) others := by
  have drawn : id new.key ∈ passed ++ id new.key :: others := mem_append_right _ mem_cons_self
  have later := (nodup_append.mp distinct).2.1
  refine ⟨?_, ?_⟩
  · rw [idsOf, map_append]
    refine nodup_append.mpr ⟨apart.distinct, nodup_singleton _, ?_⟩
    rintro key old _ last rfl
    obtain rfl := mem_singleton.mp last
    exact apart.apart _ old drawn
  intro key mem
  rw [idsOf, map_append] at mem
  rcases mem_append.mp mem with old | last
  · intro among
    exact apart.apart key old (mem_append_right _ (mem_cons_of_mem _ among))
  obtain rfl := mem_singleton.mp last
  exact (nodup_cons.mp later).1

theorem Renewed.snoc {new : Deposited Key} (drawn : id new.key ∈ fresh) :
    Renewed id fresh deposit (deposit ++ [new]) where
  known := by
    intro key mem
    rw [idsOf, map_append] at mem
    rcases mem_append.mp mem with old | last
    · exact .inl old
    obtain rfl := mem_singleton.mp last
    exact .inr drawn
  offers := by
    intro key mem
    rw [offered, filter_append, idsOf, map_append] at mem
    rcases mem_append.mp mem with old | last
    · exact .inl old
    obtain ⟨_, there, rfl⟩ := mem_map.mp last
    obtain rfl := mem_singleton.mp (mem_of_mem_filter there)
    exact .inr drawn

theorem forgetStale_sublist (deposit : List (Deposited Key)) (nowMs : Nat) :
    (forgetStale deposit nowMs).Sublist deposit := by
  unfold forgetStale
  simp only
  split
  · exact filter_sublist.trans filter_sublist
  · exact filter_sublist

section

variable (consumed : List Nat) (nowMs : Nat) (deposit : List (Deposited Key))

theorem idsOf_markHandedOut :
    idsOf id (markHandedOut id consumed nowMs deposit) = idsOf id deposit := by
  unfold idsOf markHandedOut
  rw [map_map]
  apply map_congr_left
  intro _ _
  simp only [Function.comp_apply]
  split
  · rfl
  · rfl

theorem renewed_markHandedOut :
    Renewed id fresh deposit (markHandedOut id consumed nowMs deposit) where
  known := by
    intro key mem
    rw [idsOf_markHandedOut] at mem
    exact .inl mem
  offers := by
    intro key mem
    obtain ⟨_, among, rfl⟩ := mem_map.mp mem
    obtain ⟨there, onDeposit⟩ := mem_filter.mp among
    obtain ⟨_, old, rfl⟩ := mem_map.mp there
    left
    split at onDeposit
    · cases onDeposit
    next unmarked =>
      rw [if_neg unmarked]
      exact mem_map_of_mem (mem_filter.mpr ⟨old, onDeposit⟩)

end

theorem apart_markHandedOut (apart : Apart id deposit pool) (consumed : List Nat) (nowMs : Nat) :
    Apart id (markHandedOut id consumed nowMs deposit) pool := by
  refine ⟨?_, ?_⟩
  · rw [idsOf_markHandedOut]
    exact apart.distinct
  rw [idsOf_markHandedOut]
  exact apart.apart

end Kinds

/-- The ids of both kinds of one-time keys are distinct, and none is about to be drawn. -/
structure PrekeyFile.AllApart (file : PrekeyFile) (pool : List Nat) : Prop where
  oneTime : Apart PrekeySecret.id file.oneTime pool
  pqOneTime : Apart PqPrekeySecret.id file.pqOneTime pool

/-- What a call that draws ids does to the one-time keys. -/
structure Made (supply rest : Supply) (before after : PrekeyFile) : Prop where
  pool : rest.ids <:+ supply.ids
  oneTime : Renewed PrekeySecret.id supply.ids before.oneTime after.oneTime
  pqOneTime : Renewed PqPrekeySecret.id supply.ids before.pqOneTime after.pqOneTime
  apart : supply.ids.Nodup → before.AllApart supply.ids → after.AllApart rest.ids

namespace Made

theorem trans (first : Made supply middle before between) (second : Made middle rest between after) :
    Made supply rest before after where
  pool := second.pool.trans first.pool
  oneTime := first.oneTime.trans (second.oneTime.mono first.pool.subset)
  pqOneTime := first.pqOneTime.trans (second.pqOneTime.mono first.pool.subset)
  apart := fun distinct apart =>
    second.apart (distinct.sublist first.pool.sublist) (first.apart distinct apart)

theorem of_sublist (pool : rest.ids <:+ supply.ids) (oneTime : after.oneTime.Sublist before.oneTime)
    (pqOneTime : after.pqOneTime.Sublist before.pqOneTime) :
    Made supply rest before after where
  pool := pool
  oneTime := .of_sublist oneTime
  pqOneTime := .of_sublist pqOneTime
  apart := fun _ apart =>
    ⟨(apart.oneTime.of_sublist oneTime).mono pool.subset,
      (apart.pqOneTime.of_sublist pqOneTime).mono pool.subset⟩

end Made

namespace PrekeyFile

theorem made_addOneTime (added : addOneTime nowMs file supply = some (after, rest)) :
    Made supply rest file after := by
  obtain ⟨id, _, fresh, added⟩ := draw_bind_eq_some.mp added
  obtain ⟨_, left, taken, added⟩ := draw_bind_eq_some.mp added
  obtain ⟨rfl, rfl⟩ := draw_pure_eq_some.mp added
  obtain ⟨passed, split⟩ := freshId_eq_some fresh
  rw [← drawSecret_ids taken] at split
  have suffix : left.ids <:+ supply.ids :=
    ⟨passed ++ [id], by rw [split, append_assoc, singleton_append]⟩
  refine ⟨suffix, ?_, .refl _ _ _, fun distinct apart => ⟨?_, apart.pqOneTime.mono suffix.subset⟩⟩
  · apply Renewed.snoc
    rw [split]
    exact mem_append_right _ mem_cons_self
  have oneTime := apart.oneTime
  rw [split] at oneTime distinct
  exact Apart.snoc oneTime distinct

theorem made_addPqOneTime (added : addPqOneTime nowMs file supply = some (after, rest)) :
    Made supply rest file after := by
  obtain ⟨id, _, fresh, added⟩ := draw_bind_eq_some.mp added
  obtain ⟨_, left, taken, added⟩ := draw_bind_eq_some.mp added
  obtain ⟨rfl, rfl⟩ := draw_pure_eq_some.mp added
  obtain ⟨passed, split⟩ := freshId_eq_some fresh
  rw [← drawSeed_ids taken] at split
  have suffix : left.ids <:+ supply.ids :=
    ⟨passed ++ [id], by rw [split, append_assoc, singleton_append]⟩
  refine ⟨suffix, .refl _ _ _, ?_, fun distinct apart => ⟨apart.oneTime.mono suffix.subset, ?_⟩⟩
  · apply Renewed.snoc
    rw [split]
    exact mem_append_right _ mem_cons_self
  have pqOneTime := apart.pqOneTime
  rw [split] at pqOneTime distinct
  exact Apart.snoc pqOneTime distinct

theorem made_addEach {add : PrekeyFile → Draw PrekeyFile}
    (made : ∀ supply rest file after, add file supply = some (after, rest) →
      Made supply rest file after)
    (added : addEach add count file supply = some (after, rest)) :
    Made supply rest file after := by
  induction count generalizing file supply with
  | zero =>
    obtain ⟨rfl, rfl⟩ := draw_pure_eq_some.mp added
    exact .of_sublist (suffix_refl _) (List.Sublist.refl _) (List.Sublist.refl _)
  | succ count ih =>
    obtain ⟨_, _, one, others⟩ := draw_bind_eq_some.mp added
    exact (made _ _ _ _ one).trans (ih others)

theorem made_topUpOneTime (filled : topUpOneTime nowMs file supply = some (after, rest)) :
    Made supply rest file after := by
  have forgotten : Made supply supply file
      { file with oneTime := forgetStale file.oneTime nowMs } :=
    .of_sublist (suffix_refl _) (forgetStale_sublist _ _) (List.Sublist.refl _)
  exact forgotten.trans (made_addEach (fun _ _ _ _ => made_addOneTime) filled)

theorem made_topUpPqOneTime (filled : topUpPqOneTime nowMs file supply = some (after, rest)) :
    Made supply rest file after := by
  have forgotten : Made supply supply file
      { file with pqOneTime := forgetStale file.pqOneTime nowMs } :=
    .of_sublist (suffix_refl _) (List.Sublist.refl _) (forgetStale_sublist _ _)
  exact forgotten.trans (made_addEach (fun _ _ _ _ => made_addPqOneTime) filled)

theorem rotate_ids
    {Key : Type} {createdAtMs : Key → Nat} {fresh : Draw Key} {keys rotated : List Key}
    (same : ∀ supply rest key, fresh supply = some (key, rest) → rest.ids = supply.ids)
    (turned : rotate createdAtMs fresh keys nowMs supply = some (rotated, rest)) :
    rest.ids = supply.ids := by
  obtain ⟨_, _, added, cut⟩ := draw_bind_eq_some.mp turned
  obtain ⟨_, rfl⟩ := draw_pure_eq_some.mp cut
  unfold renew at added
  split at added
  · obtain ⟨key, _, drawn, put⟩ := draw_bind_eq_some.mp added
    obtain ⟨_, rfl⟩ := draw_pure_eq_some.mp put
    exact same _ _ _ drawn
  obtain ⟨_, rfl⟩ := draw_pure_eq_some.mp added
  rfl

theorem made_refresh (refreshed : refresh nowMs file supply = some (after, rest)) :
    Made supply rest file after := by
  obtain ⟨id, first, fresh, refreshed⟩ := draw_bind_eq_some.mp refreshed
  obtain ⟨signed, second, turned, refreshed⟩ := draw_bind_eq_some.mp refreshed
  obtain ⟨pqId, third, pqFresh, refreshed⟩ := draw_bind_eq_some.mp refreshed
  obtain ⟨pqSigned, fourth, pqTurned, refreshed⟩ := draw_bind_eq_some.mp refreshed
  obtain ⟨_, _, filled, refreshed⟩ := draw_bind_eq_some.mp refreshed
  have secondIds : second.ids = first.ids := by
    refine rotate_ids (fun _ _ _ drawn => ?_) turned
    obtain ⟨_, left, taken, put⟩ := draw_bind_eq_some.mp drawn
    obtain ⟨_, rfl⟩ := draw_pure_eq_some.mp put
    exact drawSecret_ids taken
  have fourthIds : fourth.ids = third.ids := by
    refine rotate_ids (fun _ _ _ drawn => ?_) pqTurned
    obtain ⟨_, left, taken, put⟩ := draw_bind_eq_some.mp drawn
    obtain ⟨_, rfl⟩ := draw_pure_eq_some.mp put
    exact drawSeed_ids taken
  have pool : fourth.ids <:+ supply.ids := by
    obtain ⟨passed, split⟩ := freshId_eq_some fresh
    obtain ⟨pqPassed, pqSplit⟩ := freshId_eq_some pqFresh
    rw [fourthIds, split, ← secondIds, pqSplit]
    exact ⟨passed ++ [id] ++ pqPassed ++ [pqId], by simp⟩
  have rotated : Made supply fourth file { file with signed := signed, pqSigned := pqSigned } :=
    .of_sublist pool (List.Sublist.refl _) (List.Sublist.refl _)
  exact (rotated.trans (made_topUpOneTime filled)).trans (made_topUpPqOneTime refreshed)

end PrekeyFile

namespace SessionStore

variable {store after : SessionStore}

theorem prekeysForPublish_eq_some
    {primitives : Primitives} {published : Except SessionError Prekeys}
    (made : store.prekeysForPublish primitives identity nowMs saved supply =
      some ((published, after), rest)) :
    Made supply rest store.prekeys after.prekeys ∧ ∀ prekeys, published = .ok prekeys →
        prekeys.oneTime.map OneTimePrekey.id = offered PrekeySecret.id after.prekeys.oneTime ∧
        prekeys.pqOneTime.map SignedPqPrekey.id =
          offered PqPrekeySecret.id after.prekeys.pqOneTime := by
  obtain ⟨file, middle, refreshed, made⟩ := draw_bind_eq_some.mp made
  obtain ⟨prekeys, left, lifted, made⟩ := draw_bind_eq_some.mp made
  obtain ⟨same, rfl⟩ := draw_pure_eq_some.mp made
  cases same
  obtain ⟨listed, lifted⟩ : file.publicPrekeys primitives identity = some prekeys ∧
      middle = left := by
    simpa [StateT.lift, Option.bind_eq_some_iff] using lifted
  subst lifted
  refine ⟨made_refresh refreshed, fun published saying => ?_⟩
  obtain ⟨_, _, rfl⟩ := Option.map_eq_some_iff.mp listed
  unfold saving at saying
  split at saying
  · cases saying
    constructor
    · rw [map_map]
      rfl
    rw [map_map]
    rfl
  · cases saying

theorem made_noteHandedOut
    (supply : Supply) (store : SessionStore) (consumed pqConsumed : List Nat) (nowMs : Nat) :
    Made supply supply store.prekeys (store.noteHandedOut consumed pqConsumed nowMs).prekeys where
  pool := suffix_refl _
  oneTime := renewed_markHandedOut _ _ _
  pqOneTime := renewed_markHandedOut _ _ _
  apart := fun _ apart =>
    ⟨apart_markHandedOut apart.oneTime _ _, apart_markHandedOut apart.pqOneTime _ _⟩

@[simp] theorem prekeys_mayTopUp (store : SessionStore) (nowMs : Nat) :
    (store.mayTopUp nowMs).2.prekeys = store.prekeys := by
  unfold mayTopUp
  simp only
  split
  · rfl
  · rfl

theorem made_applyPrekeyStatus {answer : Except SessionError Bool}
    (applied : store.applyPrekeyStatus oneTimeRemaining consumed pqOneTimeRemaining pqConsumed
      nowMs saved supply = some ((answer, after), rest)) :
    Made supply rest store.prekeys after.prekeys := by
  have noted := made_noteHandedOut supply store consumed pqConsumed nowMs
  unfold applyPrekeyStatus at applied
  generalize store.noteHandedOut consumed pqConsumed nowMs = marked at applied noted
  simp only at applied
  generalize (decide (oneTimeRemaining < ONE_TIME_MIN) ||
    pqOneTimeRemaining.any fun left => decide (left < PQ_ONE_TIME_MIN)) = low at applied
  have same : (if low = true then marked.mayTopUp nowMs else (false, marked)).2.prekeys =
      marked.prekeys := by
    split
    · exact prekeys_mayTopUp marked nowMs
    · rfl
  generalize (if low = true then marked.mayTopUp nowMs else (false, marked)) = counted
    at applied same
  split at applied
  · obtain ⟨_, _, filled, applied⟩ := draw_bind_eq_some.mp applied
    obtain ⟨_, left, pqFilled, applied⟩ := draw_bind_eq_some.mp applied
    obtain ⟨pair, rfl⟩ := draw_pure_eq_some.mp applied
    obtain ⟨_, rfl⟩ := Prod.mk.inj pair
    rw [same] at filled
    exact (noted.trans (made_topUpOneTime filled)).trans (made_topUpPqOneTime pqFilled)
  obtain ⟨pair, rfl⟩ := draw_pure_eq_some.mp applied
  obtain ⟨_, rfl⟩ := Prod.mk.inj pair
  rw [same]
  exact noted

/-- The prekeys of a handshake that a body carries, where it is completed. -/
def completes (primitives : Primitives) (store : SessionStore) (identity : Identity)
    (sender : UserId) (body : RatchetBody) (draws : RatchetDraws) : Option Named :=
  match (store.sessionsWith sender).find? (·.session.id = body.session), body.init with
  | none, some init =>
    match named store.prekeys init with
    | .error _ => none
    | .ok keys =>
      match establish primitives identity sender keys init body draws with
      | .error _ => none
      | .ok _ => some keys
  | _, _ => none

@[simp] theorem prekeys_makeRoom (store : SessionStore) (peer : UserId) (nowMs : Nat) :
    (store.makeRoom peer nowMs).prekeys = store.prekeys := by
  unfold makeRoom
  split
  · rfl
  · rfl

@[simp] theorem prekeys_adopt
    (store : SessionStore) (sender : UserId) (session : Session) (nowMs : Nat) :
    (store.adopt sender session nowMs).prekeys = store.prekeys :=
  prekeys_makeRoom store sender nowMs

theorem prekeys_decrypt
    (primitives : Primitives) (store : SessionStore) (identity : Identity) (sender : UserId)
    (body : RatchetBody) (nowMs : Nat) (draws : RatchetDraws) (prekeysSaved saved : Bool) :
    (store.decrypt primitives identity sender body nowMs draws prekeysSaved saved).2.prekeys =
      ((store.completes primitives identity sender body draws).map
        (spend store.prekeys)).getD store.prekeys := by
  unfold decrypt completes
  cases (store.sessionsWith sender).find? (·.session.id = body.session) with
  | some =>
    simp only [readOn]
    split <;> rfl
  | none =>
    cases body.init with
    | none => rfl
    | some init =>
      simp only [readFirst]
      cases named store.prekeys init with
      | error why => rfl
      | ok keys =>
        simp only [bind, Except.bind]
        cases establish primitives identity sender keys init body draws with
        | error why => rfl
        | ok =>
          simp only [pure, Except.pure]
          split
          · rfl
          · exact prekeys_adopt _ _ _ _

section Spending

theorem spend_oneTime_sublist (file : PrekeyFile) (keys : Named) :
    (spend file keys).oneTime.Sublist file.oneTime := by
  unfold spend
  simp only
  split
  · exact List.Sublist.refl _
  · exact eraseP_sublist

theorem spend_pqOneTime_sublist (file : PrekeyFile) (keys : Named) :
    (spend file keys).pqOneTime.Sublist file.pqOneTime := by
  unfold spend
  simp only
  split
  · exact List.Sublist.refl _
  split
  · exact eraseP_sublist
  · exact List.Sublist.refl _

theorem notMem_idsOf_eraseP
    {Key : Type} {id : Key → Nat} {deposit : List (Deposited Key)} {key : Nat}
    (distinct : (idsOf id deposit).Nodup) :
    key ∉ idsOf id (deposit.eraseP fun deposited => id deposited.key = key) := by
  induction deposit with
  | nil => exact not_mem_nil
  | cons first _ ih =>
    rw [idsOf, map_cons, nodup_cons] at distinct
    by_cases same : id first.key = key
    · rw [eraseP_cons_of_pos (by simpa using same), ← same]
      exact distinct.1
    rw [eraseP_cons_of_neg (by simpa using same), idsOf, map_cons, mem_cons, not_or]
    exact ⟨Ne.symm same, ih distinct.2⟩

theorem named_eq_ok (found : named file init = .ok keys) :
    (∀ key, keys.oneTime = some key → key.id ∈ idsOf PrekeySecret.id file.oneTime) ∧
      ∀ key, keys.pq = some key → keys.pqOneTime = true →
        key.id ∈ idsOf PqPrekeySecret.id file.pqOneTime := by
  unfold named at found
  split at found
  · cases found
  obtain ⟨oneTime, named, found⟩ := bind_eq_ok.mp found
  obtain ⟨⟨pq, isOneTime⟩, pqNamed, found⟩ := bind_eq_ok.mp found
  cases found
  refine ⟨fun key same => ?_, fun key same once => ?_⟩
  · obtain rfl : oneTime = some key := same
    unfold namedOneTime at named
    split at named
    · cases named
    split at named
    next deposited there =>
      obtain rfl := Option.some.inj (Except.ok.inj named)
      exact mem_map_of_mem (mem_of_find?_eq_some there)
    next => cases named
  obtain rfl : pq = some key := same
  obtain rfl : isOneTime = true := once
  unfold namedPq at pqNamed
  split at pqNamed
  · cases pqNamed
  split at pqNamed
  next deposited there =>
    obtain ⟨same, _⟩ := Prod.mk.inj (Except.ok.inj pqNamed)
    cases same
    exact mem_map_of_mem (mem_of_find?_eq_some there)
  next =>
    split at pqNamed
    next => cases (Prod.mk.inj (Except.ok.inj pqNamed)).2
    next => cases pqNamed

theorem spend_oneTime_gone
    (distinct : (idsOf PrekeySecret.id file.oneTime).Nodup) {key : PrekeySecret}
    (used : keys.oneTime = some key) :
    key.id ∉ idsOf PrekeySecret.id (spend file keys).oneTime := by
  simp only [spend, used]
  exact notMem_idsOf_eraseP distinct

theorem spend_pqOneTime_gone
    (distinct : (idsOf PqPrekeySecret.id file.pqOneTime).Nodup) {key : PqPrekeySecret}
    (used : keys.pq = some key) (once : keys.pqOneTime = true) :
    key.id ∉ idsOf PqPrekeySecret.id (spend file keys).pqOneTime := by
  simp only [spend, used, once, if_true]
  exact notMem_idsOf_eraseP distinct

theorem named_of_completes {primitives : Primitives} {draws : RatchetDraws}
    (completed : store.completes primitives identity sender body draws = some keys) :
    ∃ init, named store.prekeys init = .ok keys := by
  unfold completes at completed
  split at completed
  next init _ _ =>
    split at completed
    · cases completed
    next named =>
      split at completed
      · cases completed
      cases completed
      exact ⟨init, named⟩
  · cases completed

end Spending

end SessionStore

end Silver.Client
