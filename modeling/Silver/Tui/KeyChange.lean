import Silver.Client.Contact
import Silver.Foundation.Run
import Silver.Foundation.Table

/-!
# Changes of a contact's key

The front end pins a contact's bundle when a lookup or a send finishes and when the contact
starts a session.  Whether a send met another key is decided against the pin it was started
with.  A change of the pinned key is announced exactly where what happened since has not
made the answer out of date.
-/

namespace Silver.Tui.KeyChange

open Foundation Protocol Client Contact Option Table

/-- Why a lookup gave nothing. -/
inductive LookupError where
  | transparency
  | other
deriving DecidableEq

abbrev Answer : Type :=
  Except LookupError (Option KeyBundle)

/-- A message on its way: the bundle it went out under, and whether that has another key
than the one pinned when it was started. -/
structure Delivery where
  bundle : KeyBundle
  keyChanged : Bool
deriving DecidableEq

def prekeysVanished (pinned fresh : Option KeyBundle) : Bool :=
  match pinned, fresh with
  | some pinned, some fresh => pinned.prekeys.isSome && !fresh.prekeys.isSome
  | _, _ => false

/-- The bundle a message goes out under; none where it does not go out. -/
def chooseBundle (pinned : Option KeyBundle) (needsFresh : Bool) (answer : Answer) :
    Option KeyBundle :=
  if pinned.isNone || needsFresh then
    match answer with
    | .ok fresh =>
      if prekeysVanished pinned fresh then pinned
      else if fresh.isSome then fresh
      else pinned
    | .error .transparency => none
    | .error .other => pinned
  else pinned

def sendContent (peer : UserId) (pinned : Option KeyBundle) (needsFresh : Bool)
    (answer : Answer) : Option Delivery :=
  if pinned.any fun bundle => bundle.userId ≠ peer then none
  else
    (chooseBundle pinned needsFresh answer).map fun bundle =>
      ⟨bundle, pinned.any fun known => known.dhPublic ≠ bundle.dhPublic⟩

/-- A send under way: the pin it was started with, and its outcome once there is one. -/
structure Send where
  peer : UserId
  pinned : Option KeyBundle
  outcome : Option (Option Delivery)
deriving DecidableEq

def Send.answered (send : Send) (needsFresh : Bool) (answer : Answer) : Send :=
  { send with outcome := some (sendContent send.peer send.pinned needsFresh answer) }

/-- What the front end shows about keys. -/
inductive Notice where
  | keyChange (user : UserId) (wasVerified : Bool)
  | gotKey (user : UserId)
  | noKey (user : UserId)
  | added (user : UserId) (found : Bool)
  | replacedKey (user : UserId)
  | foreignKey (user : UserId)
  | uncheckedKey (user : UserId)
deriving DecidableEq

/-- The front end: its contacts, the sends under way and what it has shown. -/
structure App where
  contacts : Table UserId Contact
  sends : List Send
  shown : List Notice

/-- What the front end handles: a lookup that finished, a send started, answered by the
client or finished, a session a contact started, and the user's own commands. -/
inductive Move where
  | lookupDone (user : UserId) (aliasName : Option String) (answer : Answer)
  | startSend (peer : UserId)
  | answerSend (index : Nat) (needsFresh : Bool) (answer : Answer)
  | sendDone (index : Nat)
  | sessionEstablished (peer : UserId) (identityDh : Option DhPublic)
      (published : Option KeyBundle)
  | verify (user : UserId) (verified : Bool)
  | remove (user : UserId)
deriving DecidableEq

namespace App

def start (contacts : Table UserId Contact) : App :=
  ⟨contacts, [], []⟩

def tell (app : App) (notice : Notice) : App :=
  { app with shown := app.shown ++ [notice] }

def keep (app : App) (user : UserId) (contact : Contact) : App :=
  { app with contacts := app.contacts.insert user contact }

def noteKeyChange (app : App) (user : UserId) (contact : Contact) (bundle : KeyBundle) : App :=
  (app.keep user ((contact.pin (some bundle)).setVerified false)).tell
    (.keyChange user contact.verified)

def lookedUp (app : App) (user : UserId) (contact : Contact) : Option KeyBundle → App
  | none => app.tell (.noKey user)
  | some bundle =>
    match contact.bundle with
    | none => (app.keep user (contact.pin (some bundle))).tell (.gotKey user)
    | some pinned =>
      if pinned.dhPublic = bundle.dhPublic then app.keep user (contact.pin (some bundle))
      else app.noteKeyChange user contact bundle

def lookupDone (app : App) (user : UserId) (aliasName : Option String) : Answer → App
  | .error _ => app
  | .ok bundle =>
    match app.contacts.get user with
    | some contact => app.lookedUp user contact bundle
    | none =>
      (app.keep user { Contact.new user with aliasName, bundle }).tell (.added user bundle.isSome)

def sendDone (app : App) (peer : UserId) : Option Delivery → App
  | none => app
  | some delivery =>
    match app.contacts.get peer with
    | none => app
    | some contact =>
      if delivery.keyChanged then app.noteKeyChange peer contact delivery.bundle
      else app.keep peer (contact.pin (some delivery.bundle))

/-- A contact started a session, under a key checked against the one published. -/
def sessionEstablished (app : App) (peer : UserId) (identityDh : Option DhPublic)
    (published : Option KeyBundle) : App :=
  match identityDh with
  | none => app
  | some used =>
    let pinned := (app.contacts.get peer).bind Contact.key
    match published with
    | some now =>
      if now.dhPublic ≠ used then
        app.tell (if pinned = some used then .replacedKey peer else .foreignKey peer)
      else
        match app.contacts.get peer with
        | none => app
        | some contact =>
          if pinned.any fun pin => pin ≠ used then app.noteKeyChange peer contact now else app
    | none => if pinned.any fun pin => pin ≠ used then app.tell (.uncheckedKey peer) else app

/-- One thing the front end handles. -/
def step (app : App) : Move → Option App
  | .lookupDone user aliasName answer => some (app.lookupDone user aliasName answer)
  | .startSend peer =>
    (app.contacts.get peer).map fun contact =>
      { app with sends := app.sends ++ [⟨peer, contact.bundle, none⟩] }
  | .answerSend index needsFresh answer =>
    (app.sends[index]?).map fun send =>
      { app with sends := app.sends.set index (send.answered needsFresh answer) }
  | .sendDone index =>
    (app.sends[index]?).bind fun send =>
      send.outcome.map fun outcome =>
        { app with sends := app.sends.eraseIdx index }.sendDone send.peer outcome
  | .sessionEstablished peer identityDh published =>
    some (app.sessionEstablished peer identityDh published)
  | .verify user verified =>
    (app.contacts.get user).map fun contact => app.keep user (contact.setVerified verified)
  | .remove user => some { app with contacts := app.contacts.remove user }

end App

def App.keyOf (app : App) (user : UserId) : Option DhPublic :=
  (app.contacts.get user).bind Contact.key

def Rekeyed (before after : App) (user : UserId) : Prop :=
  ∃ old new, before.keyOf user = some old ∧ after.keyOf user = some new ∧ old ≠ new

def Announced (before after : App) (user : UserId) : Prop :=
  (∃ wasVerified, .keyChange user wasVerified ∈ after.shown.drop before.shown.length) ∧
    ∀ contact, after.contacts.get user = some contact → contact.verified = false

def Honest (before after : App) : Prop :=
  ∀ user, Rekeyed before after user → Announced before after user

def Send.current (send : Send) (pin : Option DhPublic) : Bool :=
  match send.outcome with
  | some (some delivery) => pin.all fun now =>
    now = delivery.bundle.dhPublic ||
      send.pinned.any fun known => known.dhPublic ≠ delivery.bundle.dhPublic
  | _ => true

def App.Current (app : App) : Move → Prop
  | .sendDone index =>
    ((app.sends[index]?).all fun send => send.current (app.keyOf send.peer)) = true
  | _ => True

def App.Decided (app : App) : Prop :=
  ∀ send ∈ app.sends, ∀ delivery, send.outcome = some (some delivery) → delivery.keyChanged =
      send.pinned.any fun known => known.dhPublic ≠ delivery.bundle.dhPublic

theorem sendContent_decided {answer : Answer}
    (sent : sendContent peer pinned needsFresh answer = some delivery) :
    delivery.keyChanged = pinned.any fun known => known.dhPublic ≠ delivery.bundle.dhPublic := by
  unfold sendContent at sent
  split at sent
  · cases sent
  obtain ⟨bundle, -, rfl⟩ := map_eq_some_iff.mp sent
  rfl

section Honesty

variable {contact : Contact}

theorem keyOf_keep (app : App) (user other : UserId) (contact : Contact) :
    (app.keep user contact).keyOf other =
      if other = user then contact.key else app.keyOf other := by
  simp only [App.keyOf, App.keep, get_insert]
  split <;> rfl

theorem honest_of_same (same : ∀ user, after.keyOf user = app.keyOf user) : Honest app after := by
  rintro user ⟨_, _, before, now, apart⟩
  rw [same user, before] at now
  exact absurd (some.inj now) apart

theorem honest_keep (kept : app.keyOf user = none ∨ contact.key = app.keyOf user)
    (contacts : ∀ other, after.keyOf other = (app.keep user contact).keyOf other) :
    Honest app after := by
  rintro other ⟨_, _, before, now, apart⟩
  rw [contacts other, keyOf_keep] at now
  split at now
  next same =>
    subst same
    rcases kept with absent | unchanged
    · cases absent.symm.trans before
    rw [unchanged, before] at now
    exact absurd (some.inj now) apart
  · rw [before] at now
    exact absurd (some.inj now) apart

theorem honest_noteKeyChange (bundle : KeyBundle) :
    Honest app (app.noteKeyChange user contact bundle) := by
  rintro other ⟨_, _, before, now, apart⟩
  by_cases same : other = user
  · subst same
    refine ⟨⟨contact.verified, ?_⟩, fun after found => ?_⟩
    · simp [App.noteKeyChange, App.tell, App.keep]
    have kept := (get_insert_self app.contacts other
      ((contact.pin (some bundle)).setVerified false)).symm.trans found
    cases kept
    rfl
  have unchanged : (app.noteKeyChange user contact bundle).keyOf other = app.keyOf other :=
    (keyOf_keep app user other _).trans (if_neg same)
  rw [unchanged, before] at now
  exact absurd (some.inj now) apart

theorem honest_lookedUp (found : app.contacts.get user = some contact) (bundle : Option KeyBundle) :
    Honest app (app.lookedUp user contact bundle) := by
  have pinned : app.keyOf user = contact.bundle.map KeyBundle.dhPublic := by
    simp [App.keyOf, found, key]
  cases bundle with
  | none => exact honest_of_same fun _ => rfl
  | some bundle =>
    unfold App.lookedUp
    dsimp only
    split
    next unpinned =>
      rw [unpinned] at pinned
      exact honest_keep (.inl pinned) fun _ => rfl
    next held =>
      rw [held] at pinned
      split
      next same =>
        have unchanged : (contact.pin (some bundle)).key = app.keyOf user := by
          rw [pinned]
          exact congrArg some same.symm
        exact honest_keep (.inr unchanged) fun _ => rfl
      · exact honest_noteKeyChange bundle

theorem honest_lookupDone (user : UserId) (aliasName : Option String) (answer : Answer) :
    Honest app (app.lookupDone user aliasName answer) := by
  unfold App.lookupDone
  split
  · exact honest_of_same fun _ => rfl
  next bundle =>
    split
    next found => exact honest_lookedUp found bundle
    next absent => exact honest_keep (.inl (by simp [App.keyOf, absent])) fun _ => rfl

theorem honest_sessionEstablished
    (peer : UserId) (identityDh : Option DhPublic) (published : Option KeyBundle) :
    Honest app (app.sessionEstablished peer identityDh published) := by
  unfold App.sessionEstablished
  split
  · exact honest_of_same fun _ => rfl
  dsimp only
  split
  next now =>
    split
    · exact honest_of_same fun _ => rfl
    split
    · exact honest_of_same fun _ => rfl
    split
    · exact honest_noteKeyChange now
    · exact honest_of_same fun _ => rfl
  · split
    · exact honest_of_same fun _ => rfl
    · exact honest_of_same fun _ => rfl

theorem honest_repin_iff {bundle : KeyBundle} :
    Honest app (({ app with sends } : App).keep user (contact.pin (some bundle))) ↔
      ((app.keyOf user).all fun now => now = bundle.dhPublic || false) = true := by
  constructor
  · intro honest
    cases held : app.keyOf user with
    | none => rfl
    | some now =>
      by_contra apart
      have other : now ≠ bundle.dhPublic := by simpa using apart
      have repinned :
          (({ app with sends } : App).keep user (contact.pin (some bundle))).keyOf user =
            some bundle.dhPublic :=
        (keyOf_keep _ user user _).trans (if_pos rfl)
      obtain ⟨⟨_, told⟩, -⟩ := honest user ⟨now, _, held, repinned, other⟩
      simp [App.keep] at told
  intro current
  refine honest_keep ?_ fun _ => rfl
  cases held : app.keyOf user with
  | none => exact .inl rfl
  | some now =>
    rw [held] at current
    have same : now = bundle.dhPublic := by simpa using current
    exact .inr (congrArg some same.symm)

theorem honest_sendDone_iff {send : Send}
    (decided : ∀ delivery, send.outcome = some (some delivery) → delivery.keyChanged =
      send.pinned.any fun known => known.dhPublic ≠ delivery.bundle.dhPublic)
    (done : send.outcome = some outcome) :
    Honest app (({ app with sends } : App).sendDone send.peer outcome) ↔
      send.current (app.keyOf send.peer) = true := by
  cases outcome with
  | none =>
    have current : send.current (app.keyOf send.peer) = true := by
      simp [Send.current, done]
    exact ⟨fun _ => current, fun _ => honest_of_same fun _ => rfl⟩
  | some delivery =>
    have changed := decided delivery done
    simp only [Send.current, done]
    rw [← changed]
    unfold App.sendDone
    dsimp only
    split
    next absent =>
      have unpinned : app.keyOf send.peer = none := by simp [App.keyOf, absent]
      rw [unpinned]
      exact ⟨fun _ => rfl, fun _ => honest_of_same fun _ => rfl⟩
    next contact _ =>
      split
      next news =>
        rw [news]
        refine ⟨fun _ => by cases app.keyOf send.peer <;> simp, fun _ => ?_⟩
        have noted : Honest { app with sends }
            (({ app with sends } : App).noteKeyChange send.peer contact delivery.bundle) :=
          honest_noteKeyChange delivery.bundle
        exact noted
      next stale =>
        rw [Bool.not_eq_true] at stale
        rw [stale]
        exact honest_repin_iff

end Honesty

section Deciding

variable {app after : App}

theorem App.Decided.of_sends
    (decided : app.Decided) (same : ∀ send ∈ after.sends, send ∈ app.sends) :
    after.Decided :=
  fun send listed => decided send (same send listed)

theorem sends_lookupDone (user : UserId) (aliasName : Option String) (answer : Answer) :
    (app.lookupDone user aliasName answer).sends = app.sends := by
  unfold App.lookupDone App.lookedUp
  split
  · rfl
  split
  · split
    · rfl
    split
    · rfl
    split
    · rfl
    · rfl
  · rfl

theorem sends_sendDone (peer : UserId) (outcome : Option Delivery) :
    (app.sendDone peer outcome).sends = app.sends := by
  unfold App.sendDone
  split
  · rfl
  split
  · rfl
  split
  · rfl
  · rfl

theorem sends_sessionEstablished
    (peer : UserId) (identityDh : Option DhPublic) (published : Option KeyBundle) :
    (app.sessionEstablished peer identityDh published).sends = app.sends := by
  unfold App.sessionEstablished
  split
  · rfl
  dsimp only
  split
  · split
    · rfl
    split
    · rfl
    split
    · rfl
    · rfl
  split
  · rfl
  · rfl

theorem App.Decided.step (decided : app.Decided) (ran : app.step move = some after) :
    after.Decided := by
  cases move with
  | lookupDone user _ answer =>
    cases ran
    refine decided.of_sends fun send listed => ?_
    rwa [sends_lookupDone] at listed
  | startSend peer =>
    obtain ⟨contact, -, rfl⟩ := map_eq_some_iff.mp ran
    intro send listed delivery answered
    rcases List.mem_append.mp listed with old | new
    · exact decided send old delivery answered
    obtain rfl := List.mem_singleton.mp new
    cases answered
  | answerSend index _ answer =>
    obtain ⟨_, -, rfl⟩ := map_eq_some_iff.mp ran
    intro send listed delivery answered
    rcases List.mem_or_eq_of_mem_set listed with old | rfl
    · exact decided send old delivery answered
    · exact sendContent_decided (some.inj answered)
  | sendDone index =>
    obtain ⟨_, -, finished⟩ := bind_eq_some_iff.mp ran
    obtain ⟨_, -, rfl⟩ := map_eq_some_iff.mp finished
    refine decided.of_sends fun send listed => ?_
    rw [sends_sendDone] at listed
    exact List.mem_of_mem_eraseIdx listed
  | sessionEstablished peer =>
    cases ran
    refine decided.of_sends fun send listed => ?_
    rwa [sends_sessionEstablished] at listed
  | verify user =>
    obtain ⟨contact, -, rfl⟩ := map_eq_some_iff.mp ran
    exact decided
  | remove user =>
    cases ran
    exact decided

end Deciding

theorem honest_step {app after : App} (notDone : ∀ index, move ≠ .sendDone index)
    (ran : app.step move = some after) :
    Honest app after := by
  cases move with
  | lookupDone user aliasName answer =>
    cases ran
    exact honest_lookupDone user aliasName answer
  | startSend peer | answerSend index _ answer =>
    obtain ⟨_, -, rfl⟩ := map_eq_some_iff.mp ran
    exact honest_of_same fun _ => rfl
  | sendDone index => exact absurd rfl (notDone index)
  | sessionEstablished peer identityDh published =>
    cases ran
    exact honest_sessionEstablished peer identityDh published
  | verify user =>
    obtain ⟨_, found, rfl⟩ := map_eq_some_iff.mp ran
    refine honest_keep (.inr ?_) fun _ => rfl
    simp [App.keyOf, found, key, setVerified]
  | remove user =>
    cases ran
    rintro other ⟨_, _, before, now, apart⟩
    have kept : (app.contacts.remove user).get other = app.contacts.get other := by
      refine if_neg fun same => ?_
      subst same
      simp [App.keyOf] at now
    have unchanged : ({ app with contacts := app.contacts.remove user } : App).keyOf other =
        app.keyOf other := by
      simp only [App.keyOf, kept]
    rw [unchanged, before] at now
    exact absurd (some.inj now) apart

/-- From every state reached, a step announces every change of a pinned key exactly where
no send finishes whose answer is out of date. -/
theorem key_change_announced_iff
    {contacts : Table UserId Contact} {moves : List Move} {app after : App} {move : Move}
    (reached : run App.step (App.start contacts) moves = some app)
    (stepped : app.step move = some after) :
    Honest app after ↔ app.Current move := by
  have decided : app.Decided := by
    have preserve : ∀ move state next, App.Decided state → App.step state move = some next →
        App.Decided next :=
      fun _ _ _ decided stepped => decided.step stepped
    exact run_keeps (fun _ listed => nomatch listed) preserve reached
  cases move with
  | sendDone =>
    obtain ⟨send, listed, finished⟩ := bind_eq_some_iff.mp stepped
    obtain ⟨_, done, rfl⟩ := map_eq_some_iff.mp finished
    rw [App.Current, listed, all_some]
    exact honest_sendDone_iff (decided send (List.mem_of_getElem? listed)) done
  | _ => exact ⟨fun _ => trivial, fun _ => honest_step (by simp) stepped⟩

section Example

def bob : UserId :=
  .fill 32 1

def bundleOf (key : UInt8) : KeyBundle :=
  ⟨bob, .fill 32 key, .fill 64 0, none, [], none, [], none, none⟩

def known : Table UserId Contact :=
  Table.empty.insert bob (((Contact.new bob).pin (some (bundleOf 1))).setVerified true)

def crossing : List Move :=
  [.startSend bob, .startSend bob, .answerSend 0 true (.ok (some (bundleOf 2))),
    .answerSend 1 true (.ok (some (bundleOf 1)))]

def inFlight : List Send :=
  [⟨bob, some (bundleOf 1), some (some ⟨bundleOf 2, true⟩)⟩,
    ⟨bob, some (bundleOf 1), some (some ⟨bundleOf 1, false⟩)⟩]

/-- The first of the two sends is announced. -/
theorem first_send_announced :
    run App.step (App.start known) crossing = some ⟨known, inFlight, []⟩ ∧
      (∃ after, App.step ⟨known, inFlight, []⟩ (.sendDone 0) = some after ∧
        Honest ⟨known, inFlight, []⟩ after) := by
  have reached : run App.step (App.start known) crossing = some ⟨known, inFlight, []⟩ := rfl
  have current : App.Current ⟨known, inFlight, []⟩ (.sendDone 0) := by
    unfold App.Current
    decide +kernel
  exact ⟨reached, _, rfl, (key_change_announced_iff reached rfl).mpr current⟩

/-- The second brings the first key back without a word. -/
theorem second_send_unannounced :
    ∃ app after, run App.step (App.start known) (crossing ++ [.sendDone 0]) = some app ∧
      app.step (.sendDone 0) = some after ∧ ¬Honest app after := by
  refine ⟨_, _, rfl, rfl, fun honest => ?_⟩
  obtain ⟨⟨_, told⟩, -⟩ := honest bob ⟨.fill 32 2, .fill 32 1, rfl, rfl, by decide⟩
  cases told

end Example

end Silver.Tui.KeyChange
