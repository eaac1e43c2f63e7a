import Silver.Client.Tail.Messages
import Silver.Client.Tail.Pages
import Silver.System.Network

/-!
# The tail follows the relay

Whatever is written meanwhile, the tail follows the relay's log: the heads under
way are heads of the log, in order, and the page the tail waits for is the only
one under way and reads on from where the tail stands.  So nobody is accused.
-/

namespace Silver.System

open Foundation Protocol Client Relay Directory Option Reply
open List hiding after length tail head take lookup

section InFlight

/-- A page of the log, from its request to its arrival. -/
inductive Page (Hash : Type) where
  | asked (index : Nat)
  | read (entries : List (LogEntry Hash))
  | sent (entries : List (LogEntry Hash)) (head : LogHead Hash)

def Request.page : Request -> Option (Page Hash)
  | .logSince index => some (.asked index)
  | _ => none

def Reading.page : Reading Hash -> Option (Page Hash)
  | .logSince index => some (.asked index)
  | .logHead entries => some (.read entries)
  | _ => none

def Reply.page : Reply Hash -> Option (Page Hash)
  | .logEntries entries head => some (.sent entries head)
  | _ => none

def Reading.head : Reading Hash -> Option (LogHead Hash)
  | .lookup _ _ draft => draft.head
  | _ => none

def Reply.head : Reply Hash -> Option (LogHead Hash)
  | .logHead head => some head
  | .logEntries _ head => some head
  | .lookupResult result => result.head

def Stage.beforeHead : Stage -> Bool
  | .bundle | .revocation | .succession | .logged | .head => true
  | _ => false

def Network.pages (network : Network Hash) : List (Page Hash) :=
  network.replies.filterMap Reply.page ++ (network.reading.bind Reading.page).toList ++
    network.requests.filterMap Request.page

def Network.heads (network : Network Hash) : List (LogHead Hash) :=
  network.replies.filterMap Reply.head ++ (network.reading.bind Reading.head).toList

variable [DecidableEq Hash] (sha256 : Sha256 Hash)

def PageFits (log : List (LogEntry Hash)) (needed index : Nat) : Page Hash -> Prop
  | .asked start => start = index
  | .read entries => ∃ read, needed <= read ∧ read <= log.length ∧
      entries = entriesSince (log.take read) index LOG_PAGE
  | .sent entries head => IsPage sha256 log index needed entries head

def HeadsFrom (log : List (LogEntry Hash)) : Nat -> List (LogHead Hash) -> Prop
  | _, [] => True
  | start, head :: rest => ∃ index, head = headAt sha256 log index ∧ start <= index ∧
      index <= log.length ∧ HeadsFrom log index rest

/-- The tail follows the relay's log, of which it has replayed `length`
entries. -/
structure Follows (network : Network Hash) (store : LogStore Hash) (length : Nat) : Prop where
  tracking : Tracking sha256 True (network.directory sha256).log network.tail store length
  heads : HeadsFrom sha256 (network.directory sha256).log length network.heads
  pages : List.Forall₂
    (PageFits sha256 (network.directory sha256).log (network.tail.relies sha256))
    (network.tail.requested sha256).toList network.pages
  answered : ∀ reply ∈ network.replies, reply.head ≠ none
  drafted : ∀ connection stage draft, network.reading = some (.lookup connection stage draft) ->
      (draft.head = none ↔ stage.beforeHead = true)
  calm : ∀ event ∈ network.raised, ¬Accuses event

end InFlight

section Heads

variable {log : List (LogEntry Hash)}

section

variable (ordered : HeadsFrom sha256 log start heads)
include ordered

theorem HeadsFrom.mono (before : earlier <= start) : HeadsFrom sha256 log earlier heads := by
  cases heads with
  | nil => trivial
  | cons =>
    obtain ⟨index, isHead, atLeast, within, later⟩ := ordered
    exact ⟨index, isHead, Nat.le_trans before atLeast, within, later⟩

theorem HeadsFrom.grow (more : List (LogEntry Hash)) :
    HeadsFrom sha256 (log ++ more) start heads := by
  induction heads generalizing start with
  | nil => trivial
  | cons _ _ ih =>
    obtain ⟨index, isHead, atLeast, within, later⟩ := ordered
    refine ⟨index, ?_, atLeast, ?_, ih later⟩
    · rw [headAt_append within]
      exact isHead
    rw [length_append]
    omega

theorem HeadsFrom.snoc (within : start <= log.length) :
    HeadsFrom sha256 log start (heads ++ [headAt sha256 log log.length]) := by
  induction heads generalizing start with
  | nil => exact ⟨log.length, rfl, within, .refl, trivial⟩
  | cons _ _ ih =>
    obtain ⟨index, isHead, atLeast, inside, later⟩ := ordered
    exact ⟨index, isHead, atLeast, inside, ih later inside⟩

end

theorem PageFits.grow {page : Page Hash}
    (fits : PageFits sha256 log needed index page) (more : List (LogEntry Hash)) :
    PageFits sha256 (log ++ more) needed index page := by
  cases page with
  | asked => exact fits
  | read entries =>
    obtain ⟨read, enough, within, rfl⟩ := fits
    refine ⟨read, enough, ?_, ?_⟩
    · rw [length_append]
      omega
    · rw [take_append_of_le_length within]
  | sent entries =>
    obtain ⟨read, upTo, enough, ordered, within, rfl, rfl⟩ := fits
    refine ⟨read, upTo, enough, ordered, ?_, ?_, ?_⟩
    · rw [length_append]
      omega
    · rw [take_append_of_le_length (by omega)]
    · rw [headAt_append within]

end Heads

variable [DecidableEq Hash]
  {store : LogStore Hash}

omit [DecidableEq Hash] in
theorem logHead_eq (sha256 : Sha256 Hash) (directory : Directory Hash) :
    directory.logHead sha256 = headAt sha256 directory.log directory.log.length := by
  simp [Directory.logHead, headAt]

theorem chains_directory (noClash : Function.Injective sha256.digest) (network : Network Hash) :
    ChainsTo sha256 (network.directory sha256).log ((network.directory sha256).logHead sha256) :=
  (Faithful.after noClash network.operations).records.chains

theorem Takes.relies {next : Tail Hash} {step : Step Hash}
    (tracking : Tracking sha256 True chain tail store length)
    (takes : Takes sha256 True chain tail store length next step) (occupied : tail.mode ≠ none) :
    next.relies sha256 = tail.relies sha256 := by
  have sameLog : next.log = tail.log := by
    rw [takes.tracking.log, tracking.log]
  simp only [Tail.relies, Tail.ours, takes.busy occupied, sameLog]

omit [DecidableEq Hash] in
theorem pages_dispatch (network : Network Hash) (dealt : Tail Hash × Step Hash) :
    (network.dispatch dealt).pages = network.pages ++ dealt.2.send.map Page.asked := by
  simp [Network.pages, Network.dispatch, filterMap_append, filterMap_map,
    Function.comp_def, Request.page]

section

variable (follows : Follows sha256 network store length)
include follows

theorem Follows.dispatch {next : Tail Hash} {step : Step Hash}
    (takes : Takes sha256 True (network.directory sha256).log network.tail store length next step) :
    Follows sha256 (network.dispatch (next, step)) store length where
  tracking := takes.tracking
  heads := follows.heads
  pages := by
    rw [pages_dispatch, Network.dispatch, takes.asked]
    refine rel_append ?_ ?_
    · cases current : network.tail.mode with
      | none =>
        have before := follows.pages
        rw [Tail.requested, current] at before ⊢
        rw [toList_none, forall₂_nil_left_iff] at before
        rw [before]
        exact .nil
      | some mode =>
        have same := Takes.relies follows.tracking takes (by simp [current])
        rw [same]
        exact follows.pages
    rw [forall₂_map_right_iff, forall₂_same]
    exact fun _ _ => rfl
  answered := follows.answered
  drafted := follows.drafted
  calm := by
    intro event mem
    rcases mem_append.mp mem with mem | mem
    · exact follows.calm event mem
    · exact takes.calm trivial event mem

theorem Follows.write (act : Operation) :
    Follows sha256 { network with operations := network.operations ++ [act] } store
      length := by
  obtain ⟨entries, grown, _⟩ := log_step sha256 (network.directory sha256) act
  have next : ({ network with operations := network.operations ++ [act] } :
      Network Hash).directory sha256 = (network.directory sha256).step sha256 act :=
    after_snoc network.operations act
  refine { follows with tracking := ?_, heads := ?_, pages := ?_ }
  · rw [next, grown]
    exact follows.tracking.grow
  · rw [next, grown]
    exact follows.heads.grow entries
  rw [next, grown]
  exact follows.pages.imp fun _ _ fits => fits.grow entries

theorem Follows.ask (user : UserId) (caller : Nat) : Follows sha256
      { network with
        lookups := network.lookups ++ [(user, caller)]
        requests := network.requests ++ [.lookup user] }
      store length := by
  refine { follows with pages := ?_ }
  have same : ({ network with
      lookups := network.lookups ++ [(user, caller)]
      requests := network.requests ++ [.lookup user] } : Network Hash).pages = network.pages := by
    simp [Network.pages, Request.page]
  rw [same]
  exact follows.pages

theorem Follows.take (connection : Connection) {request : Request}
    (unoccupied : network.reading = none) (requests : network.requests = request :: rest) :
    Follows sha256
      { network with requests := rest, reading := some (Reading.start connection request) }
      store length := by
  have samePages : ({ network with
      requests := rest, reading := some (Reading.start connection request) } :
        Network Hash).pages = network.pages := by
    cases request <;>
      simp [Network.pages, unoccupied, requests, Reading.start, Reading.page, Request.page,
        filterMap_cons]
  have sameHeads : ({ network with
      requests := rest, reading := some (Reading.start connection request) } :
        Network Hash).heads = network.heads := by
    cases request <;> simp [Network.heads, unoccupied, Reading.start, Reading.head]
  refine { follows with heads := ?_, pages := ?_, drafted := ?_ }
  · rw [sameHeads]
    exact follows.heads
  · rw [samePages]
    exact follows.pages
  intro connection _ _ started
  cases request with
  | login | logSince => cases started
  | lookup =>
    cases started
    exact ⟨fun _ => rfl, fun _ => rfl⟩

end

theorem forall₂_toList_middle
    {α β : Type} {fits : α -> β -> Prop} {requested : Option α} {before after : List β} {page : β}
    (pages : List.Forall₂ fits requested.toList (before ++ [page] ++ after)) :
    ∃ index, requested = some index ∧ before = [] ∧ after = [] ∧ fits index page := by
  cases requested with
  | none => simp at pages
  | some index =>
    have single := pages.length_eq
    simp only [toList_some, length_singleton, length_append] at single
    obtain rfl := eq_nil_of_length_eq_zero (by omega : before.length = 0)
    obtain rfl := eq_nil_of_length_eq_zero (by omega : after.length = 0)
    cases pages with
    | cons fit => exact ⟨index, rfl, rfl, rfl, fit⟩

omit [DecidableEq Hash] in
theorem readLookup_head
    (sha256 : Sha256 Hash) (directory : Directory Hash) (handout : Handout) (connection : Connection)
    (draft : LookupResult Hash) (stage : Stage) :
    (∃ further shown, readLookup sha256 directory handout connection draft stage =
        .inl (.lookup connection further shown) ∧
      ((shown.head = draft.head ∧ further.beforeHead = stage.beforeHead) ∨
        (stage.beforeHead = true ∧ shown.head = some (directory.logHead sha256) ∧
          further.beforeHead = false))) ∨
    (stage.beforeHead = false ∧ ∃ result,
      readLookup sha256 directory handout connection draft stage = .inr (.lookupResult result) ∧
      result.head = draft.head) := by
  have devices : ∀ listed, (Stage.devices listed).beforeHead = false := by
    intro listed
    cases listed <;> rfl
  cases stage with
  | bundle | succession | logged | issued => exact .inl ⟨_, _, rfl, .inl ⟨rfl, rfl⟩⟩
  | revocation =>
    cases held : directory.revocations.get draft.userId with
    | none =>
      refine .inl ⟨.succession, draft, ?_, .inl ⟨rfl, rfl⟩⟩
      simp only [readLookup, held]
    | some revocation =>
      refine .inl ⟨.logged, { draft with revocation := some revocation }, ?_, .inl ⟨rfl, rfl⟩⟩
      simp only [readLookup, held]
  | head =>
    refine .inl ⟨_, _, rfl, .inr ⟨rfl, rfl, ?_⟩⟩
    split
    · exact devices _
    · rfl
  | revokedBy device listed =>
    refine .inl ⟨_, _, rfl, .inl ⟨rfl, ?_⟩⟩
    split
    · exact devices _
    · rfl
  | deviceBundle device listed => exact .inl ⟨_, _, rfl, .inl ⟨rfl, devices _⟩⟩
  | own => exact .inr ⟨rfl, _, rfl, rfl⟩

theorem filterMap_snoc {α : Type} (select : α -> Option β) (items : List α) (item : α) :
    (items ++ [item]).filterMap select = items.filterMap select ++ (select item).toList := by
  rw [filterMap_append]
  cases selected : select item <;> simp [selected]

section

variable (follows : Follows sha256 network store length)
include follows

theorem Follows.reply {reply : Reply Hash}
    (heads : HeadsFrom sha256 (network.directory sha256).log length
      (network.replies.filterMap head ++ reply.head.toList))
    (pages : List.Forall₂
      (PageFits sha256 (network.directory sha256).log (network.tail.relies sha256))
      (network.tail.requested sha256).toList
      (network.replies.filterMap page ++ reply.page.toList ++
        network.requests.filterMap Request.page))
    (answered : reply.head ≠ none) :
    Follows sha256 { network with reading := none, replies := network.replies ++ [reply] } store
      length where
  tracking := follows.tracking
  heads := by
    rw [Network.heads, filterMap_snoc]
    exact (append_nil _).symm ▸ heads
  pages := by
    rw [Network.pages, filterMap_snoc]
    exact (append_nil (_ ++ _)).symm ▸ pages
  answered := by
    intro other mem
    rcases mem_append.mp mem with mem | mem
    · exact follows.answered other mem
    obtain rfl := mem_singleton.mp mem
    exact answered
  drafted := by simp
  calm := follows.calm

theorem Follows.readOn {further : Reading Hash}
    (heads : HeadsFrom sha256 (network.directory sha256).log length
      (network.replies.filterMap head ++ further.head.toList))
    (pages : List.Forall₂
      (PageFits sha256 (network.directory sha256).log (network.tail.relies sha256))
      (network.tail.requested sha256).toList
      (network.replies.filterMap page ++ further.page.toList ++
        network.requests.filterMap Request.page))
    (drafted : ∀ connection stage draft, further = .lookup connection stage draft ->
      (draft.head = none ↔ stage.beforeHead = true)) :
    Follows sha256 { network with reading := some further } store length where
  tracking := follows.tracking
  heads := heads
  pages := pages
  answered := follows.answered
  drafted := fun connection stage draft same => drafted connection stage draft (some.inj same)
  calm := follows.calm

/-- The relay reads one table. -/
theorem Follows.read (chains : ChainsTo sha256 (network.directory sha256).log
      ((network.directory sha256).logHead sha256))
    (handout : Handout) (occupied : network.reading = some reading) :
    Follows sha256
      (match reading.next sha256 (network.directory sha256) handout with
        | .inl further => { network with reading := some further }
        | .inr reply => { network with reading := none, replies := network.replies ++ [reply] })
      store length := by
  have heads := follows.heads
  have pages := follows.pages
  rw [Network.heads, occupied, bind_some] at heads
  rw [Network.pages, occupied, bind_some] at pages
  have current := logHead_eq sha256 (network.directory sha256)
  have withHead : reading.head = none -> HeadsFrom sha256 (network.directory sha256).log length
      (network.replies.filterMap head ++ [(network.directory sha256).logHead sha256]) := by
    intro unread
    rw [unread, toList_none, append_nil] at heads
    rw [current]
    exact heads.snoc follows.tracking.within
  cases reading with
  | login => exact follows.reply (withHead rfl) pages (by simp [head])
  | logSince index =>
    obtain ⟨asked, requested, before, after, fits⟩ := forall₂_toList_middle pages
    obtain rfl : index = asked := fits
    refine follows.readOn heads ?_ (by simp)
    rw [requested, before, after]
    refine .cons ⟨_, follows.tracking.relies_le chains, .refl, ?_⟩ .nil
    rw [take_length, logSince]
  | logHead =>
    obtain ⟨asked, requested, before, after, fits⟩ := forall₂_toList_middle pages
    obtain ⟨read, enough, inside, rfl⟩ := fits
    refine follows.reply (withHead rfl) ?_ (by simp [head])
    rw [requested, before, after]
    exact .cons ⟨read, _, enough, inside, .refl, rfl, current⟩ .nil
  | lookup connection stage draft =>
    have drafted := follows.drafted connection stage draft occupied
    rw [Reading.next]
    rcases readLookup_head sha256 (network.directory sha256) handout connection draft stage with
      ⟨further, _, next, sameHead | ⟨before, newHead, after⟩⟩ |
      ⟨after, _, next, sameHead⟩
    · rw [next]
      refine follows.readOn ?_ pages ?_
      · rw [Reading.head, sameHead.1]
        exact heads
      intro _ _ _ same
      cases same
      rw [sameHead.1, sameHead.2]
      exact drafted
    · rw [next]
      refine follows.readOn ?_ pages ?_
      · rw [Reading.head, newHead]
        exact withHead (drafted.mpr before)
      intro _ _ _ same
      cases same
      simp [newHead, after]
    rw [next]
    refine follows.reply ?_ pages ?_
    · rw [head, sameHead]
      exact heads
    rw [head, sameHead]
    intro unread
    rw [drafted.mp unread] at after
    cases after

theorem Follows.head_arrives {reply : Reply Hash} (replies : network.replies = reply :: rest) :
    ∃ index, reply.head = some (headAt sha256 (network.directory sha256).log index) ∧
      length <= index ∧ index <= (network.directory sha256).log.length ∧
      HeadsFrom sha256 (network.directory sha256).log index
        ({ network with replies := rest } : Network Hash).heads := by
  have heads := follows.heads
  obtain ⟨head, came⟩ := ne_none_iff_exists'.mp (follows.answered reply (replies ▸ (.head _)))
  rw [Network.heads, replies, filterMap_cons_some came] at heads
  obtain ⟨index, rfl, ordered, within, later⟩ := heads
  exact ⟨index, came, ordered, within, later⟩

theorem Follows.arrive {reply : Reply Hash} (replies : network.replies = reply :: rest)
    (notPage : reply.page = none) (lookups : List (UserId × Nat)) :
    Follows sha256 { network with replies := rest, lookups := lookups } store length := by
  obtain ⟨_, _, ordered, _, later⟩ := follows.head_arrives replies
  refine { follows with heads := later.mono ordered, pages := ?_, answered := ?_ }
  · have pages := follows.pages
    rw [Network.pages, replies, filterMap_cons_none notPage] at pages
    exact pages
  intro other mem
  exact follows.answered other (replies ▸ .tail _ mem)

theorem Follows.page (chains : ChainsTo sha256 (network.directory sha256).log
      ((network.directory sha256).logHead sha256))
    {head : LogHead Hash}
    (replies : network.replies = .logEntries entries head :: rest)
    (scheme : Signatures) (nowMs : Nat) :
    ∃ nextStore nextLength, Follows sha256
        ({ network with replies := rest }.dispatch
          (network.tail.onEntries sha256 scheme entries head nowMs)) nextStore nextLength ∧
      Deals sha256 scheme (network.directory sha256).log
        (fun answer => .answer answer ∈ network.tail.deferred)
        (network.tail.onEntries sha256 scheme entries head nowMs).1
        (network.tail.onEntries sha256 scheme entries head nowMs).2 := by
  obtain ⟨atHead, came, _, within, later⟩ := follows.head_arrives replies
  have pages := follows.pages
  have first : network.pages = [] ++ [.sent entries head] ++
      ({ network with replies := rest } : Network Hash).pages := by
    simp [Network.pages, replies, Reply.page]
  rw [first] at pages
  obtain ⟨index, requested, _, nothing, page⟩ := forall₂_toList_middle pages
  obtain ⟨nextStore, nextLength, _, proceeds⟩ :=
    onEntries_proceeds follows.tracking chains requested page nowMs
  have numbered : head.index = atHead := by
    cases came
    exact chains.index_headAt within
  refine ⟨nextStore, nextLength, ⟨proceeds.tracking, later.mono (by omega), ?_, ?_,
    follows.drafted, ?_⟩, proceeds.deals⟩
  · rw [pages_dispatch, nothing, proceeds.send, nil_append, forall₂_map_right_iff]
    exact forall₂_same.mpr fun _ _ => rfl
  · intro other mem
    exact follows.answered other (replies ▸ .tail _ mem)
  intro event mem
  rcases mem_append.mp mem with mem | mem
  · exact follows.calm event mem
  · exact proceeds.calm trivial event mem

end

def Network.Pending (network : Network Hash) (reply : Reply Hash) (answer : Answer Hash) : Prop :=
  .answer answer ∈ network.tail.deferred ∨ reply = .lookupResult answer.result

section

variable (follows : Follows sha256 network store length)
  (chains : ChainsTo sha256 (network.directory sha256).log ((network.directory sha256).logHead sha256))
include follows chains

theorem Follows.receive {reply : Reply Hash} (replies : network.replies = reply :: rest)
    (scheme : Signatures) (nowMs : Nat) :
    ∃ nextStore nextLength lookups dealt,
      { network with replies := rest }.receive sha256 scheme nowMs reply =
        { network with replies := rest, lookups := lookups }.dispatch dealt ∧
      Follows sha256 ({ network with replies := rest, lookups := lookups }.dispatch dealt) nextStore
        nextLength ∧
      Deals sha256 scheme (network.directory sha256).log (network.Pending reply) dealt.1
        dealt.2 := by
  obtain ⟨_, came, ordered, within, _⟩ := follows.head_arrives replies
  cases reply with
  | logHead head =>
    cases came
    exact ⟨store, length, network.lookups, _, rfl,
      (follows.arrive replies rfl network.lookups).dispatch
        (onRelayHead_takes follows.tracking chains ordered within nowMs),
      (onRelayHead_deals follows.tracking chains ordered within nowMs).mono fun _ => .inl⟩
  | logEntries _ head =>
    obtain ⟨nextStore, nextLength, next, deals⟩ := follows.page chains replies scheme nowMs
    exact ⟨nextStore, nextLength, network.lookups, _, rfl, next, deals.mono fun _ => .inl⟩
  | lookupResult =>
    refine ⟨store, length, _, _, rfl, (follows.arrive replies rfl _).dispatch
      (onAnswer_takes follows.tracking chains came ordered within nowMs), ?_⟩
    refine (onAnswer_deals follows.tracking chains came ordered within nowMs).mono ?_
    rintro _ (waiting | rfl)
    · exact .inl waiting
    · exact .inr rfl

theorem Follows.hear (within : index <= (network.directory sha256).log.length)
    (scheme : Signatures) (peer : UserId) :
    Follows sha256
        (network.dispatch (network.tail.onPeerHead sha256 peer
          (headAt sha256 (network.directory sha256).log index))) store length ∧
      Deals sha256 scheme (network.directory sha256).log
        (fun answer => .answer answer ∈ network.tail.deferred)
        (network.tail.onPeerHead sha256 peer (headAt sha256 (network.directory sha256).log index)).1
        (network.tail.onPeerHead sha256 peer
          (headAt sha256 (network.directory sha256).log index)).2 := by
  have reported : Reported sha256 True (network.directory sha256).log
      (headAt sha256 (network.directory sha256).log index) := by
    refine ⟨?_, fun _ => ?_⟩
    · rwa [chains.index_headAt within]
    · rw [chains.index_headAt within]
  exact ⟨follows.dispatch (onPeerHead_takes follows.tracking chains reported peer).1,
    onPeerHead_deals follows.tracking chains reported peer⟩

end

theorem Follows.step (follows : Follows sha256 network store length)
    (noClash : Function.Injective sha256.digest) {next : Network Hash}
    (ran : network.step sha256 scheme action = some next) :
    ∃ nextStore nextLength, Follows sha256 next nextStore nextLength := by
  have chains := chains_directory noClash network
  cases action with
  | write act =>
    cases ran
    exact ⟨store, length, follows.write act⟩
  | ask user caller =>
    cases ran
    exact ⟨store, length, follows.ask user caller⟩
  | take connection =>
    rw [Network.step] at ran
    split at ran
    · rename_i unoccupied requests
      cases ran
      exact ⟨store, length, follows.take connection unoccupied requests⟩
    · cases ran
  | read handout =>
    obtain ⟨_, occupied, rfl⟩ := map_eq_some_iff.mp ran
    exact ⟨store, length, follows.read chains handout occupied⟩
  | deliver nowMs =>
    rw [Network.step] at ran
    split at ran
    · cases ran
    rename_i reply rest replies
    obtain ⟨nextStore, nextLength, _, _, received, after, _⟩ :=
      follows.receive chains replies scheme nowMs
    rw [some.injEq, received] at ran
    subst ran
    exact ⟨nextStore, nextLength, after⟩
  | hear peer =>
    rw [Network.step] at ran
    split at ran
    · rename_i within
      cases ran
      exact ⟨store, length, (follows.hear chains within scheme peer).1⟩
    · cases ran

theorem Follows.connect (mirrors : Mirrors sha256 store ((after sha256 operations).log.take length))
    (within : length <= (after sha256 operations).log.length) :
    Follows sha256 (Network.connect operations (some store)) store length where
  tracking := ⟨rfl, within, mirrors, trivial, by simp [Network.connect, Tail.new], fun _ => rfl⟩
  heads := trivial
  pages := .nil
  answered := by simp [Network.connect]
  drafted := by simp [Network.connect]
  calm := by simp [Network.connect]

theorem Follows.run (noClash : Function.Injective sha256.digest)
    (follows : Follows sha256 network store length)
    (ended : run (Network.step sha256 scheme) network actions = some final) :
    ∃ finalStore finalLength, Follows sha256 final finalStore finalLength := by
  let keeps := fun network => ∃ store length, Follows sha256 network store length
  have preserve : ∀ action network next, keeps network ->
      Network.step sha256 scheme network action = some next -> keeps next := by
    rintro action network next ⟨_, _, follows⟩ ran
    exact follows.step noClash ran
  exact run_keeps ⟨store, length, follows⟩ preserve ended

end Silver.System
