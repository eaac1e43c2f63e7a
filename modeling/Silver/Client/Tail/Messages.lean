import Silver.Client.Tail.Tracking

/-!
# Heads and answers

What a tail does when it is told a head, by the relay or by a contact, and when a
lookup is answered.  The relay's heads come in the order they were read, so none
of them lies behind what has been replayed.
-/

namespace Silver.Client

open Foundation Protocol List Step Tail

variable [DecidableEq Hash]
variable {index : Nat} {answer : Answer Hash}

/-- The tail goes on following the chain: at most it asks for a page, if it waited
for none. -/
structure Takes (sha256 : Sha256 Hash) (trusted : Prop) (chain : List (LogEntry Hash))
    (tail : Tail Hash) (store : LogStore Hash) (length : Nat) (next : Tail Hash)
    (step : Step Hash) : Prop where
  tracking : Tracking sha256 trusted chain next store length
  asked : (next.requested sha256).toList = (tail.requested sha256).toList ++ step.send
  calm : trusted → Calm step
  busy : tail.mode ≠ none → next.mode = tail.mode

variable {sha256 : Sha256 Hash}
  {chain : List (LogEntry Hash)} {tail : Tail Hash}
  {length : Nat}

section

variable (tracking : Tracking sha256 trusted chain tail store length)
include tracking

theorem Takes.nothing : Takes sha256 trusted chain tail store length tail empty where
  tracking := tracking
  asked := (append_nil _).symm
  calm := fun _ => calm_of_events_eq_nil rfl
  busy := fun _ => rfl

theorem Tracking.defer (occupied : tail.mode ≠ none)
    {waits : Deferred Hash} (fits : Waits sha256 trusted chain waits) :
    Tracking sha256 trusted chain { tail with deferred := tail.deferred ++ [waits] } store
      length := by
  refine
    { tracking with
      waiting := fun item mem => ?_
      idle := fun unoccupied => absurd unoccupied occupied }
  rcases mem_append.mp mem with mem | mem
  · exact tracking.waiting item mem
  obtain rfl := mem_singleton.mp mem
  exact fits

theorem onRelayHead_eq (chains : ChainsTo sha256 chain last)
    (ordered : length ≤ index) (within : index ≤ chain.length) (nowMs : Nat) :
    tail.onRelayHead sha256 (headAt sha256 chain index) nowMs =
      if length < index ∧ tail.mode = none then
        tail.startAdvance sha256 (headAt sha256 chain index) none
      else (tail, empty) := by
  have stands := tracking.mirrors.head_index tracking.within
  have agrees : ¬(index = length ∧ (headAt sha256 chain index).hash ≠ store.head.hash) := by
    rintro ⟨rfl, apart⟩
    rw [tracking.mirrors.head_eq chains] at apart
    exact apart rfl
  unfold onRelayHead
  rw [tracking.log]
  dsimp only
  rw [stands, chains.index_headAt within, if_neg (by omega), if_neg agrees]

theorem Takes.startAdvance (unoccupied : tail.mode = none) (chains : ChainsTo sha256 chain last)
    (beyond : length < index) (within : index ≤ chain.length) :
    Takes sha256 trusted chain tail store length
      (tail.startAdvance sha256 (headAt sha256 chain index) none).1
      (tail.startAdvance sha256 (headAt sha256 chain index) none).2 := by
  refine ⟨⟨tracking.log, tracking.within, tracking.mirrors, ⟨by omega, ?_, ?_⟩,
    tracking.waiting, nofun⟩, ?_, fun _ => calm_of_events_eq_nil rfl,
    fun occupied => absurd unoccupied occupied⟩
  · rwa [chains.index_headAt within]
  · intro _
    rw [chains.index_headAt within]
  rw [requested, requested, unoccupied]
  rfl

variable (chains : ChainsTo sha256 chain last) (ordered : length ≤ index)
  (within : index ≤ chain.length) (nowMs : Nat)
include chains ordered within nowMs

theorem onRelayHead_takes :
    Takes sha256 trusted chain tail store length
      (tail.onRelayHead sha256 (headAt sha256 chain index) nowMs).1
      (tail.onRelayHead sha256 (headAt sha256 chain index) nowMs).2 := by
  rw [onRelayHead_eq tracking chains ordered within]
  split
  case isTrue news => exact Takes.startAdvance tracking news.2 chains news.1 within
  case isFalse _ => exact Takes.nothing tracking

theorem onRelayHead_deals :
    Deals sha256 scheme chain (fun answer => .answer answer ∈ tail.deferred)
      (tail.onRelayHead sha256 (headAt sha256 chain index) nowMs).1
      (tail.onRelayHead sha256 (headAt sha256 chain index) nowMs).2 := by
  rw [onRelayHead_eq tracking chains ordered within]
  split
  · exact ⟨fun _ waiting => waiting, by simp [startAdvance, logSince]⟩
  · exact ⟨fun _ waiting => waiting, by simp [empty]⟩

end

section

variable (tracking : Tracking sha256 trusted chain tail store length)
  (chains : ChainsTo sha256 chain last)
  (came : answer.result.head = some (headAt sha256 chain index)) (ordered : length ≤ index)
  (within : index ≤ chain.length) (nowMs : Nat)
include tracking chains came ordered within nowMs

theorem onAnswer_eq : tail.onAnswer sha256 scheme answer nowMs =
      if length < index ∨ tail.mode ≠ none then
        ({ (tail.onRelayHead sha256 (headAt sha256 chain index) nowMs).1 with
            deferred := tail.deferred ++ [.answer answer] },
          (tail.onRelayHead sha256 (headAt sha256 chain index) nowMs).2)
      else (tail, resolve sha256 scheme store answer) := by
  have stands := ours_eq tracking.log tracking.mirrors tracking.within
  unfold onAnswer
  rw [tracking.log]
  dsimp only
  rw [came]
  dsimp only
  rw [onRelayHead_eq tracking chains ordered within, chains.index_headAt within]
  cases occupied : tail.mode with
  | none =>
    by_cases beyond : length < index
    · -- The answer's own head starts the advance it waits for.
      simp [beyond, startAdvance]
    simp [beyond, occupied, stands, tracking.log]
    rfl
  | some mode => simp [occupied]

theorem onAnswer_takes : Takes sha256 trusted chain tail store length
        (tail.onAnswer sha256 scheme answer nowMs).1
        (tail.onAnswer sha256 scheme answer nowMs).2 := by
  rw [onAnswer_eq tracking chains came ordered within]
  split
  case isTrue waits =>
    have taken := onRelayHead_takes tracking chains ordered within nowMs
    have kept : (tail.onRelayHead sha256 (headAt sha256 chain index) nowMs).1.deferred =
        tail.deferred := by
      rw [onRelayHead_eq tracking chains ordered within]
      split <;> rfl
    have occupied : (tail.onRelayHead sha256 (headAt sha256 chain index) nowMs).1.mode ≠ none := by
      rw [onRelayHead_eq tracking chains ordered within]
      split
      case isTrue _ => nofun
      case isFalse stays =>
        intro unoccupied
        rcases waits with beyond | fetches
        · exact stays ⟨beyond, unoccupied⟩
        · exact fetches unoccupied
    have deferred := taken.tracking.defer occupied
      (show Waits sha256 trusted chain (.answer answer) from ⟨index, within, came⟩)
    rw [kept] at deferred
    exact { taken with tracking := deferred }
  case isFalse _ =>
    refine ⟨tracking, ?_, fun _ => resolve_calm _ _ _ _, fun _ => rfl⟩
    rw [resolve_send, append_nil]

theorem onAnswer_deals : Deals sha256 scheme chain
      (fun pending => .answer pending ∈ tail.deferred ∨ pending = answer)
      (tail.onAnswer sha256 scheme answer nowMs).1
      (tail.onAnswer sha256 scheme answer nowMs).2 := by
  rw [onAnswer_eq tracking chains came ordered within]
  split
  case isTrue _ =>
    have quiet : (tail.onRelayHead sha256 (headAt sha256 chain index) nowMs).2.replies = [] := by
      rw [onRelayHead_eq tracking chains ordered within]
      split <;> rfl
    refine ⟨?_, by simp [quiet]⟩
    intro pending waiting
    rcases mem_append.mp waiting with waiting | arrived
    · exact .inl waiting
    · exact .inr (Deferred.answer.inj (mem_singleton.mp arrived))
  case isFalse settled =>
    refine ⟨fun _ waiting => .inl waiting, fun reply told => ?_⟩
    have reached : index ≤ length := by
      by_contra beyond
      exact settled (.inl (by omega))
    exact ⟨answer, index, store, length, .inr rfl, came, reached, tracking.within,
      tracking.mirrors, told⟩

end

theorem onPeerHead_eq (log : tail.log = some store) (peer : UserId) (head : LogHead Hash) :
    tail.onPeerHead sha256 peer head = if tail.mode.isSome then
        ({ tail with deferred := tail.deferred ++ [.peerHead peer head] }, empty)
      else tail.checkHead sha256 store peer head := by
  simp only [onPeerHead, log]

section

variable {head : LogHead Hash} (tracking : Tracking sha256 trusted chain tail store length)
  (chains : ChainsTo sha256 chain last) (reported : Reported sha256 trusted chain head)
  (peer : UserId)
include tracking chains reported peer

theorem onPeerHead_takes : Takes sha256 trusted chain tail store length
        (tail.onPeerHead sha256 peer head).1 (tail.onPeerHead sha256 peer head).2 ∧
      (tail.onPeerHead sha256 peer head).2.replies = [] ∧
      (head.hash ≠ (headAt sha256 chain head.index).hash →
        Convicts peer head.index (tail.onPeerHead sha256 peer head).2 ∨
          (tail.onPeerHead sha256 peer head).1.Pending length peer head) := by
  rw [onPeerHead_eq tracking.log]
  by_cases occupied : tail.mode = none
  · rw [if_neg (by simp [occupied])]
    obtain ⟨mode, _, checked, fetching, send, replies, calm, judged⟩ :=
      checkHead_spec tracking.log occupied tracking.mirrors chains tracking.within reported peer
    rw [checked]
    refine ⟨⟨{ tracking with fetching, waiting := ?_, idle := ?_ }, ?_, calm,
      fun fetches => absurd occupied fetches⟩, replies, ?_⟩
    · exact tracking.waiting
    · exact fun _ => tracking.idle occupied
    · rw [send]
      simp [requested, occupied]
    intro apart
    rcases judged apart with raised | advances | verifies
    · exact .inl raised
    · exact .inr (.inr (.inl advances))
    · exact .inr (.inr (.inr verifies))
  have waits := reported
  rw [if_pos (Option.isSome_iff_ne_none.mpr occupied)]
  refine ⟨⟨tracking.defer occupied waits, (append_nil _).symm,
    fun _ => calm_of_events_eq_nil rfl, fun _ => rfl⟩, rfl, fun _ => .inr (.inl ?_)⟩
  exact mem_append_right _ (mem_singleton_self _)

theorem onPeerHead_deals :
    Deals sha256 scheme chain (fun answer => .answer answer ∈ tail.deferred)
      (tail.onPeerHead sha256 peer head).1 (tail.onPeerHead sha256 peer head).2 := by
  rw [onPeerHead_eq tracking.log]
  by_cases occupied : tail.mode = none
  · rw [if_neg (by simp [occupied])]
    obtain ⟨mode, _, checked, _, _, replies, _⟩ :=
      checkHead_spec tracking.log occupied tracking.mirrors chains tracking.within reported peer
    rw [checked]
    exact ⟨fun _ waiting => waiting, by simp [replies]⟩
  rw [if_pos (Option.isSome_iff_ne_none.mpr occupied)]
  refine ⟨?_, by simp [empty]⟩
  intro answer waiting
  rcases mem_append.mp waiting with waiting | arrived
  · exact waiting
  · cases mem_singleton.mp arrived

end

end Silver.Client
