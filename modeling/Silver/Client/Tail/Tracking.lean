import Silver.Client.LogStore.Heads
import Silver.Client.Tail.Defs

/-!
# A tail and the chain it follows

The state of a tail whose relay serves one chain: the store mirrors the start of the
chain, and whatever is being fetched or waits was taken from it.  Each handler keeps this
state, asks for the next page exactly when it fetches, and accuses nobody if the contacts'
heads are true (`trusted`).
-/

namespace Silver.Client

open Foundation Protocol Step
open Tail (resolveWaiting)
open List hiding after length tail head min max

section Specification

variable [DecidableEq Hash] (sha256 : Sha256 Hash)

def Accuses : ClientEvent Hash -> Prop
  | .transparency (.fork _ _) => True
  | .transparency (.withheld _ _) => True
  | .transparency (.rewound _ _) => True
  | _ => False

def Calm (step : Step Hash) : Prop :=
  ∀ event ∈ step.events, ¬Accuses event

def Tail.requested (tail : Tail Hash) : Option Nat :=
  match tail.mode with
  | none => none
  | some (.advance _ _) => some (tail.ours sha256).index
  | some (.verify cursor _ _ _ _) => some cursor.index

def Tail.relies (tail : Tail Hash) : Nat :=
  match tail.mode with
  | none => 0
  | some (.advance target _) => max ((tail.ours sha256).index + 1) target.index
  | some (.verify _ _ finish _ _) => finish.index

def IsPage (chain : List (LogEntry Hash)) (index needed : Nat)
    (entries : List (LogEntry Hash)) (head : LogHead Hash) : Prop :=
  ∃ read upTo, needed <= read ∧ read <= upTo ∧ upTo <= chain.length ∧
    entries = entriesSince (chain.take read) index LOG_PAGE ∧ head = headAt sha256 chain upTo

/-- A head that lies within a chain, and on it if its source is trusted. -/
structure Reported (trusted : Prop) (chain : List (LogEntry Hash)) (head : LogHead Hash) :
    Prop where
  within : head.index <= chain.length
  onChain : trusted -> head = headAt sha256 chain head.index

def verdict (chain : List (LogEntry Hash)) (check : LogHead Hash) (cursor : Nat) : Option Bool :=
  if check.index <= cursor then
    some (decide ((headAt sha256 chain check.index).hash = check.hash))
  else none

/-- A fetch along a chain of which `length` entries have been replayed. -/
def Fetching (trusted : Prop) (chain : List (LogEntry Hash)) (length : Nat) :
    Option (Mode Hash) -> Prop
  | none => True
  | some (.advance target origin) =>
    length < chain.length ∧ Reported sha256 (trusted ∨ origin = none) chain target
  | some (.verify cursor check finish _ matched) =>
    ∃ start stop, cursor = headAt sha256 chain start ∧ finish = headAt sha256 chain stop ∧
      start < stop ∧ stop <= length ∧ check.index < stop ∧
      Reported sha256 trusted chain check ∧ matched = verdict sha256 chain check start

def Waits (trusted : Prop) (chain : List (LogEntry Hash)) : Deferred Hash -> Prop
  | .answer answer => ∃ index ≤ chain.length, answer.result.head = some (headAt sha256 chain index)
  | .peerHead _ head => Reported sha256 trusted chain head

/-- A tail that follows a chain, having replayed its first `length` entries. -/
structure Tracking (trusted : Prop) (chain : List (LogEntry Hash)) (tail : Tail Hash)
    (store : LogStore Hash) (length : Nat) : Prop where
  log : tail.log = some store
  within : length <= chain.length
  mirrors : Mirrors sha256 store (chain.take length)
  fetching : Fetching sha256 trusted chain length tail.mode
  waiting : ∀ waits ∈ tail.deferred, Waits sha256 trusted chain waits
  idle : tail.mode = none -> tail.deferred = []

def Convicts (peer : UserId) (index : Nat) (step : Step Hash) : Prop :=
  .transparency (.fork (some peer) index) ∈ step.events

def Tail.Pending (tail : Tail Hash) (base : Nat) (peer : UserId) (head : LogHead Hash) : Prop :=
  .peerHead peer head ∈ tail.deferred ∨
    (tail.mode = some (.advance head (some peer)) ∧ base < head.index) ∨
    ∃ cursor finish matched, tail.mode = some (.verify cursor head finish peer matched)

def Tail.weight (tail : Tail Hash) : Nat :=
  tail.deferred.length +
    match tail.mode with
    | some (.verify _ _ _ _ _) => 1
    | _ => 0

/-- What it means to have dealt with what waited, as far as that goes without a
fetch. -/
structure Resolved (signatures : Signatures) (trusted : Prop) (chain : List (LogEntry Hash))
    (store : LogStore Hash) (length : Nat) (waiting : List (Deferred Hash)) (tail : Tail Hash)
    (step : Step Hash) : Prop where
  tracking : Tracking sha256 trusted chain tail store length
  send : step.send = (tail.requested sha256).toList
  calm : trusted -> Calm step
  left : ∃ dealt, waiting = dealt ++ tail.deferred
  weight : tail.weight <= waiting.length
  judged : ∀ base peer head, base <= length -> .peerHead peer head ∈ waiting ->
    head.hash ≠ (headAt sha256 chain head.index).hash ->
      Convicts peer head.index step ∨ tail.Pending base peer head
  replies : ∀ reply ∈ step.replies, ∃ answer index, .answer answer ∈ waiting ∧
    answer.result.head = some (headAt sha256 chain index) ∧ index <= length ∧
      reply ∈ (resolve sha256 signatures store answer).replies

/-- What became of the answers: those that wait were pending, and every caller
that was told something got it from a pending answer, checked against the chain
at or after the answer's own head. -/
structure Deals (signatures : Signatures) (chain : List (LogEntry Hash))
    (pending : Answer Hash -> Prop) (next : Tail Hash) (step : Step Hash) : Prop where
  waits : ∀ answer, .answer answer ∈ next.deferred -> pending answer
  replies : ∀ reply ∈ step.replies, ∃ answer index store length, pending answer ∧
    answer.result.head = some (headAt sha256 chain index) ∧ index <= length ∧
      length <= chain.length ∧ Mirrors sha256 store (chain.take length) ∧
        reply ∈ (resolve sha256 signatures store answer).replies

end Specification

section Steps

variable {first second : Step Hash}

@[simp] theorem Step.events_append : (first ++ second).events = first.events ++ second.events :=
  rfl

@[simp] theorem Step.send_append : (first ++ second).send = first.send ++ second.send :=
  rfl

@[simp] theorem Step.replies_append : (first ++ second).replies = first.replies ++ second.replies :=
  rfl

theorem Calm.append (calmFirst : Calm first) (calmSecond : Calm second) :
    Calm (first ++ second) := by
  intro event mem
  rw [events_append, mem_append] at mem
  rcases mem with mem | mem
  · exact calmFirst event mem
  · exact calmSecond event mem

theorem calm_of_events_eq_nil (quiet : first.events = []) : Calm first := by
  intro _ mem
  rw [quiet] at mem
  cases mem

theorem not_accuses_of_lifecycleEvents (mem : event ∈ lifecycleEvents scheme result) :
    ¬Accuses event := by
  simp only [lifecycleEvents, mem_append, Option.mem_toList, Option.map_eq_some_iff] at mem
  rcases mem with ⟨_, _, rfl⟩ | ⟨_, _, rfl⟩
  · exact id
  · exact id

theorem settle_calm (scheme : Signatures) (answer : Answer Hash) : Calm (settle scheme answer) := by
  intro _ mem
  rw [settle, mem_append] at mem
  rcases mem with mem | mem
  · exact not_accuses_of_lifecycleEvents mem
  obtain ⟨_, _, rfl⟩ := mem_map.mp mem
  exact id

theorem refuse_calm (scheme : Signatures) (answer : Answer Hash) (reason : String) :
    Calm (refuse scheme answer reason) := by
  intro _ mem
  rw [refuse, mem_append] at mem
  rcases mem with mem | mem
  · exact not_accuses_of_lifecycleEvents mem
  rw [mem_singleton] at mem
  subst mem
  exact id

variable [DecidableEq Hash]

variable (sha256 : Sha256 Hash) (scheme : Signatures) (log : LogStore Hash) (answer : Answer Hash)

@[simp] theorem resolve_send : (resolve sha256 scheme log answer).send = [] := by
  unfold resolve
  split <;> rfl

theorem resolve_calm : Calm (resolve sha256 scheme log answer) := by
  unfold resolve
  split
  · exact refuse_calm _ _ _
  refine Calm.append ?_ (settle_calm _ _)
  intro _ mem
  rw [mem_append] at mem
  rcases mem with mem | mem
  · obtain ⟨_, _, rfl⟩ := mem_map.mp mem
    exact id
  obtain ⟨_, _, reported⟩ := mem_filterMap.mp mem
  split at reported
  · cases reported
  cases reported
  exact id

end Steps

variable [DecidableEq Hash] {sha256 : Sha256 Hash} {trusted : Prop}
  {chain : List (LogEntry Hash)}

theorem Deals.mono {next : Tail Hash}
    {step : Step Hash} (deals : Deals sha256 scheme chain pending next step)
    (implies : ∀ answer, pending answer -> other answer) :
    Deals sha256 scheme chain other next step where
  waits := fun answer waiting => implies answer (deals.waits answer waiting)
  replies := by
    intro reply told
    obtain ⟨answer, index, store, length, was, found⟩ := deals.replies reply told
    exact ⟨answer, index, store, length, implies answer was, found⟩

section Growth

omit [DecidableEq Hash] in
theorem Reported.grow {head : LogHead Hash} (reported : Reported sha256 trusted chain head) :
    Reported sha256 trusted (chain ++ more) head := by
  refine ⟨?_, ?_⟩
  · rw [length_append]
    have := reported.within
    omega
  intro isTrusted
  rw [headAt_append reported.within]
  exact reported.onChain isTrusted

omit [DecidableEq Hash] in
theorem Waits.grow {waits : Deferred Hash} (before : Waits sha256 trusted chain waits) :
    Waits sha256 trusted (chain ++ more) waits := by
  cases waits with
  | answer answer =>
    obtain ⟨index, within, head⟩ := before
    refine ⟨index, ?_, ?_⟩
    · rw [length_append]
      omega
    rw [headAt_append within]
    exact head
  | peerHead _ head => exact Reported.grow before

theorem Fetching.grow
    (within : length <= chain.length) (before : Fetching sha256 trusted chain length mode) :
    Fetching sha256 trusted (chain ++ more) length mode := by
  match mode, before with
  | none, _ => exact trivial
  | some (.advance target origin), ⟨room, reported⟩ =>
    refine ⟨?_, reported.grow⟩
    rw [length_append]
    omega
  | some (.verify cursor check finish peer matched),
      ⟨start, stop, atStart, atStop, ordered, inside, passes, reported, compared⟩ =>
      refine ⟨start, stop, ?_, ?_, ordered, inside, passes, reported.grow, ?_⟩
      · rw [headAt_append (by omega)]
        exact atStart
      · rw [headAt_append (by omega)]
        exact atStop
      · rw [compared, verdict, verdict, headAt_append reported.within]

theorem Tracking.grow {store : LogStore Hash}
    (tracking : Tracking sha256 trusted chain tail store length) :
    Tracking sha256 trusted (chain ++ more) tail store length where
  log := tracking.log
  within := by
    rw [length_append]
    have := tracking.within
    omega
  mirrors := by
    rw [take_append_of_le_length tracking.within]
    exact tracking.mirrors
  fetching := tracking.fetching.grow tracking.within
  waiting := fun waits mem => (tracking.waiting waits mem).grow
  idle := tracking.idle

theorem Tracking.of_isPrefix {log : List (LogEntry Hash)} {store : LogStore Hash}
    (tracking : Tracking sha256 trusted log tail store length) (starts : log <+: chain) :
    Tracking sha256 trusted chain tail store length := by
  obtain ⟨_, rfl⟩ := starts
  exact tracking.grow

end Growth

theorem IsPage.spec {head : LogHead Hash}
    (page : IsPage sha256 chain index needed entries head) (chains : ChainsTo sha256 chain last)
    (room : index < needed) :
    ∃ stop upTo, index < stop ∧ stop <= upTo ∧ needed <= upTo ∧ upTo <= chain.length ∧
      entries = (chain.take stop).drop index ∧ head = headAt sha256 chain upTo := by
  obtain ⟨read, upTo, _, _, within, rfl, rfl⟩ := page
  refine ⟨min (index + LOG_PAGE) read, upTo, ?_, by omega, by omega, within, ?_, rfl⟩
  · have : 0 < LOG_PAGE := by decide
    omega
  · rw [(chains.take read).entriesSince_eq, take_drop, take_take]

theorem scan_eq (chains : ChainsTo sha256 chain last) (check : LogHead Hash) {start finish : Nat}
    (ordered : start <= stop) (within : stop <= chain.length)
    (below : start < finish) (inside : finish <= chain.length) :
    scan sha256 check (headAt sha256 chain finish) (headAt sha256 chain start)
        (verdict sha256 chain check start) ((chain.take stop).drop start) =
      if finish <= stop then
        (.genuine, headAt sha256 chain finish, verdict sha256 chain check finish)
      else (.incomplete, headAt sha256 chain stop, verdict sha256 chain check stop) := by
  obtain ⟨distance, rfl⟩ := Nat.exists_eq_add_of_le ordered
  induction distance generalizing start with
  | zero =>
    have nothing : (chain.take (start + 0)).drop start = [] := by
      apply drop_eq_nil_of_le
      rw [length_take]
      omega
    rw [nothing, if_neg (by omega)]
    rfl
  | succ distance ih =>
    have next : (chain.take (start + (distance + 1))).drop start =
        chain[start] :: (chain.take (start + (distance + 1))).drop (start + 1) := by
      rw [drop_eq_getElem_cons (by rw [length_take]; omega), getElem_take]
    have stands : chain[start]? = some chain[start] := getElem?_eq_getElem (by omega)
    obtain ⟨follows, atNext⟩ := extend_eq_some.mp (chains.extend_headAt stands)
    have numbered := chains.index_headAt (by omega : start + 1 <= chain.length)
    have numberedFinish := chains.index_headAt inside
    -- The verdict moves with the cursor.
    have compared : (if (headAt sha256 chain (start + 1)).index = check.index then
          some (decide ((headAt sha256 chain (start + 1)).hash = check.hash))
        else verdict sha256 chain check start) = verdict sha256 chain check (start + 1) := by
      rw [numbered, verdict, verdict]
      by_cases here : start + 1 = check.index
      · rw [if_pos here, if_pos (by omega), here]
      rw [if_neg here]
      by_cases passed : check.index <= start
      · rw [if_pos passed, if_pos (by omega)]
      · rw [if_neg passed, if_neg (by omega)]
    rw [next, scan]
    simp only [follows, Bool.not_true, Bool.false_eq_true, if_false, ← atNext, compared]
    rw [numbered, numberedFinish]
    by_cases reached : start + 1 = finish
    · subst reached
      rw [if_pos rfl, if_pos rfl, if_pos (by omega)]
    rw [if_neg reached]
    have rest : start + (distance + 1) = start + 1 + distance := by omega
    rw [rest]
    exact ih (by omega) (by omega) (by omega)

section Checking

variable {tail : Tail Hash} {scheme : Signatures} {waiting : List (Deferred Hash)}
  (log : tail.log = some store) (unoccupied : tail.mode = none)
  (mirrors : Mirrors sha256 store (chain.take length)) (chains : ChainsTo sha256 chain last)
  (within : length <= chain.length)

theorem resolveWaiting_occupied (occupied : tail.mode.isSome) :
    resolveWaiting sha256 scheme store tail waiting =
      ({ tail with deferred := waiting }, empty) := by
  cases waiting with
  | nil => rfl
  | cons first => cases first <;> simp [resolveWaiting, occupied]

theorem Resolved.cons {next : Tail Hash} {item : Deferred Hash} {first step : Step Hash}
    (resolved : Resolved sha256 scheme trusted chain store length rest next step)
    (send : first.send = []) (calm : trusted -> Calm first)
    (judged : ∀ peer head, item = .peerHead peer head ->
      head.hash ≠ (headAt sha256 chain head.index).hash -> Convicts peer head.index first)
    (replies : ∀ reply ∈ first.replies, ∃ answer index, item = .answer answer ∧
      answer.result.head = some (headAt sha256 chain index) ∧ index <= length ∧
        reply ∈ (resolve sha256 scheme store answer).replies) :
    Resolved sha256 scheme trusted chain store length (item :: rest) next (first ++ step) where
  tracking := resolved.tracking
  send := by
    rw [send_append, send, nil_append]
    exact resolved.send
  calm := fun isTrusted => (calm isTrusted).append (resolved.calm isTrusted)
  left := by
    obtain ⟨dealt, split⟩ := resolved.left
    exact ⟨item :: dealt, by rw [cons_append, ← split]⟩
  weight := Nat.le_succ_of_le resolved.weight
  judged := by
    intro base peer head atMost mem apart
    rcases mem_cons.mp mem with same | mem
    · exact .inl (mem_append_left _ (judged peer head same.symm apart))
    rcases resolved.judged base peer head atMost mem apart with raised | pending
    · exact .inl (mem_append_right _ raised)
    · exact .inr pending
  replies := by
    intro reply told
    rcases mem_append.mp told with told | told
    · obtain ⟨answer, index, rfl, found⟩ := replies reply told
      exact ⟨answer, index, .head _, found⟩
    obtain ⟨answer, index, mem, found⟩ := resolved.replies reply told
    exact ⟨answer, index, .tail _ mem, found⟩

include unoccupied in
theorem resolveWaiting_peerHead (peer : UserId) :
    resolveWaiting sha256 scheme store tail (.peerHead peer head :: rest) =
      let checked := tail.checkHead sha256 store peer head
      let resolved := resolveWaiting sha256 scheme store checked.1 rest
      (resolved.1, checked.2 ++ resolved.2) := by
  simp [resolveWaiting, unoccupied]

include unoccupied in
theorem resolveWaiting_answer (came : answer.result.head = some head)
    (reached : head.index <= store.head.index) :
    resolveWaiting sha256 scheme store tail (.answer answer :: rest) =
      let resolved := resolveWaiting sha256 scheme store tail rest
      (resolved.1, resolve sha256 scheme store answer ++ resolved.2) := by
  simp [resolveWaiting, unoccupied, came, Nat.not_lt.mpr reached]

include mirrors within

include log in
theorem ours_eq : (tail.ours sha256).index = length := by
  rw [Tail.ours, log]
  exact mirrors.head_index within

include log in
theorem Resolved.fetch (waits : ∀ item ∈ rest, Waits sha256 trusted chain item)
    {head : LogHead Hash} {fetch : Mode Hash} {step : Step Hash}
    (fetching : Fetching sha256 trusted chain length (some fetch))
    (send : step.send = ({ tail with mode := some fetch }.requested sha256).toList)
    (calm : trusted -> Calm step) (quiet : step.replies = [])
    (judged : head.hash ≠ (headAt sha256 chain head.index).hash -> Convicts peer head.index step ∨
        (some fetch = some (.advance head (some peer)) ∧ length < head.index) ∨
        ∃ cursor finish matched, some fetch = some (.verify cursor head finish peer matched)) :
    Resolved sha256 scheme trusted chain store length (.peerHead peer head :: rest)
      { tail with mode := some fetch, deferred := rest } (step ++ empty) := by
  refine ⟨⟨log, within, mirrors, fetching, waits, ?_⟩, ?_, ?_, ⟨[_], rfl⟩, ?_, ?_, ?_⟩
  · exact nofun
  · rw [send_append, send]
    exact append_nil _
  · exact fun isTrusted => (calm isTrusted).append (calm_of_events_eq_nil rfl)
  · cases fetch <;> simp [Tail.weight]
  · intro _ _ _ _ mem apart
    rcases mem_cons.mp mem with same | mem
    · cases same
      rcases judged apart with raised | ⟨advancing, _⟩ | verifying
      · exact .inl (mem_append_left _ raised)
      · exact .inr (.inr (.inl ⟨advancing, by omega⟩))
      · exact .inr (.inr (.inr verifying))
    · exact .inr (.inl mem)
  intro _ told
  rw [replies_append, quiet] at told
  cases told

omit mirrors within in
theorem Tracking.relies_le (tracking : Tracking sha256 trusted chain tail store length)
    (chains : ChainsTo sha256 chain last) :
    tail.relies sha256 <= chain.length := by
  have within := tracking.within
  have fetching := tracking.fetching
  unfold Tail.relies
  match current : tail.mode with
  | none => exact Nat.zero_le _
  | some (.advance target origin) =>
    rw [current] at fetching
    obtain ⟨_, reported⟩ := fetching
    have reaches := reported.within
    simp only [ours_eq tracking.log tracking.mirrors within]
    omega
  | some (.verify cursor check finish peer matched) =>
    rw [current] at fetching
    obtain ⟨_, _, _, rfl, _, inside, _⟩ := fetching
    simp only [chains.index_headAt (Nat.le_trans inside within)]
    omega

include chains

theorem checkPeerHead_cases (head : LogHead Hash) :
    (length < head.index ∧ store.checkPeerHead sha256 head = .ahead) ∨
    (head.index <= length ∧ head.hash = (headAt sha256 chain head.index).hash ∧
      store.checkPeerHead sha256 head = .consistent) ∨
    (head.index <= length ∧ head.hash ≠ (headAt sha256 chain head.index).hash ∧
      store.checkPeerHead sha256 head = .fork head.index) ∨
    (∃ start stop, start < head.index ∧ head.index < stop ∧ stop <= length ∧
      store.checkPeerHead sha256 head =
        .needEntries (headAt sha256 chain start) (headAt sha256 chain stop)) := by
  unfold LogStore.checkPeerHead
  rw [mirrors.head_index within]
  by_cases ahead : length < head.index
  · exact .inl ⟨ahead, if_pos ahead⟩
  have below : head.index <= length := Nat.le_of_not_lt ahead
  rw [if_neg ahead, mirrors.hashAt_eq chains within below]
  by_cases isHeld : IsHeld length head.index
  · rw [if_pos isHeld]
    by_cases same : (headAt sha256 chain head.index).hash = head.hash
    · exact .inr (.inl ⟨below, same.symm, if_pos same⟩)
    · exact .inr (.inr (.inl ⟨below, fun equal => same equal.symm, if_neg same⟩))
  obtain ⟨start, before, _, atStart⟩ := mirrors.checkpointBelow_spec chains within isHeld
  obtain ⟨stop, after, inside, atStop⟩ := mirrors.checkpointAbove_spec chains within below isHeld
  refine .inr (.inr (.inr ⟨start, stop, before, after, inside, ?_⟩))
  rw [if_neg isHeld, atStart, atStop]

theorem judgeTarget_eq {target : LogHead Hash} (reached : target.index <= length)
    (origin : Option UserId) :
    Tail.judgeTarget sha256 store target origin =
      if IsHeld length target.index ∧ (headAt sha256 chain target.index).hash ≠ target.hash then
        raise (.fork origin target.index)
      else empty := by
  unfold Tail.judgeTarget
  rw [mirrors.head_index within, if_neg (by omega),
    mirrors.canCheck_eq chains within reached, mirrors.hashAt_eq chains within reached]
  by_cases isHeld : IsHeld length target.index
  · simp [isHeld]
  · simp [isHeld]

include log

theorem Resolved.startAdvance (waits : ∀ item ∈ waiting, Waits sha256 trusted chain item)
    (ahead : length < index) (inside : index <= chain.length) :
    Resolved sha256 scheme trusted chain store length waiting
      ({ tail with deferred := waiting }.startAdvance sha256 (headAt sha256 chain index) none).1
      ({ tail with deferred := waiting }.startAdvance sha256 (headAt sha256 chain index)
        none).2 := by
  have numbered := chains.index_headAt inside
  refine ⟨⟨log, within, mirrors, ⟨by omega, by omega, fun _ => by rw [numbered]⟩, waits, ?_⟩, rfl,
    fun _ => calm_of_events_eq_nil rfl, ⟨[], rfl⟩, .refl, ?_, ?_⟩
  · exact nofun
  · intro _ _ _ _ mem _
    exact .inr (.inl mem)
  · exact nofun

include unoccupied

theorem checkHead_spec {head : LogHead Hash} (reported : Reported sha256 trusted chain head)
    (peer : UserId) :
    ∃ mode step, tail.checkHead sha256 store peer head = ({ tail with mode := mode }, step) ∧
      Fetching sha256 trusted chain length mode ∧
      step.send = ({ tail with mode := mode }.requested sha256).toList ∧
      step.replies = [] ∧
      (trusted -> Calm step) ∧
      (head.hash ≠ (headAt sha256 chain head.index).hash -> Convicts peer head.index step ∨
          (mode = some (.advance head (some peer)) ∧ length < head.index) ∨
          ∃ cursor finish matched, mode = some (.verify cursor head finish peer matched)) := by
  have ours := ours_eq log mirrors within
  unfold Tail.checkHead
  rcases checkPeerHead_cases mirrors chains within head with
    ⟨ahead, decided⟩ | ⟨_, same, decided⟩ | ⟨_, apart, decided⟩ |
      ⟨start, stop, _, after, inside, decided⟩
  · rw [decided]
    refine ⟨some (.advance head (some peer)), logSince (tail.ours sha256).index, rfl, ?_, rfl,
      rfl, fun _ => calm_of_events_eq_nil rfl, fun _ => .inr (.inl ⟨rfl, ahead⟩)⟩
    have inside := reported.within
    refine ⟨by omega, inside, ?_⟩
    rintro (isTrusted | fromRelay)
    · exact reported.onChain isTrusted
    · cases fromRelay
  · rw [decided]
    refine ⟨none, empty, by rw [← unoccupied], trivial, rfl, rfl,
      fun _ => calm_of_events_eq_nil rfl, fun apart => absurd same apart⟩
  · rw [decided]
    refine ⟨none, raise (.fork (some peer) head.index), by rw [← unoccupied], trivial, rfl,
      rfl, ?_, fun _ => .inl (mem_singleton_self _)⟩
    intro isTrusted
    exact absurd (congrArg LogHead.hash (reported.onChain isTrusted)) apart
  rw [decided]
  refine ⟨some (.verify (headAt sha256 chain start) head (headAt sha256 chain stop) peer none),
    logSince (headAt sha256 chain start).index, rfl, ?_, rfl, rfl,
    fun _ => calm_of_events_eq_nil rfl, fun _ => .inr (.inr ⟨_, _, _, rfl⟩)⟩
  refine ⟨start, stop, rfl, rfl, by omega, inside, after, reported, ?_⟩
  rw [verdict, if_neg (by omega)]

/-- Dealing with what waited, when nothing is being fetched. -/
theorem resolveWaiting_resolved (waits : ∀ item ∈ waiting, Waits sha256 trusted chain item) :
    Resolved sha256 scheme trusted chain store length waiting
      (resolveWaiting sha256 scheme store tail waiting).1
      (resolveWaiting sha256 scheme store tail waiting).2 := by
  induction waiting with
  | nil =>
    have nothing : resolveWaiting sha256 scheme store tail [] =
        ({ tail with deferred := [] }, empty) := rfl
    rw [nothing]
    refine ⟨⟨log, within, mirrors, ?_, by simp, fun _ => rfl⟩, ?_,
      fun _ => calm_of_events_eq_nil rfl, ⟨[], rfl⟩, ?_, by simp, ?_⟩
    · simp [unoccupied, Fetching]
    · simp [Tail.requested, unoccupied, empty]
    · simp [Tail.weight, unoccupied]
    · exact nofun
  | cons item rest ih =>
    have restWaits : ∀ other ∈ rest, Waits sha256 trusted chain other :=
      fun other mem => waits other (mem_cons_of_mem item mem)
    have rested := ih restWaits
    cases item with
    | answer answer =>
      obtain ⟨index, inside, came⟩ := waits _ (.head _)
      have numbered := chains.index_headAt inside
      by_cases ahead : length < index
      · have further : store.head.index < (headAt sha256 chain index).index := by
          rwa [mirrors.head_index within, numbered]
        simp only [resolveWaiting, unoccupied, came, further, if_true]
        exact Resolved.startAdvance log mirrors chains within waits ahead inside
      rw [resolveWaiting_answer unoccupied came
        (by rw [mirrors.head_index within, numbered]; omega)]
      refine rested.cons (resolve_send _ _ _ _) (fun _ => resolve_calm _ _ _ _) ?_ ?_
      · exact nofun
      · exact fun reply told => ⟨answer, index, rfl, came, by omega, told⟩
    | peerHead peer head =>
      have reported : Reported sha256 trusted chain head := waits _ (.head _)
      obtain ⟨mode, _, checked, fetching, send, quiet, calm, judged⟩ :=
        checkHead_spec log unoccupied mirrors chains within reported peer
      rw [resolveWaiting_peerHead unoccupied, checked]
      cases mode with
      | none =>
        -- A verdict at once: the rest follows as before.
        have same : { tail with mode := none } = tail := by
          rw [← unoccupied]
        rw [same] at send ⊢
        refine rested.cons ?_ calm ?_ ?_
        · rw [send, Tail.requested, unoccupied]
          rfl
        · intro other _ same apart
          cases same
          rcases judged apart with raised | ⟨impossible, _⟩ | ⟨_, _, _, impossible⟩
          · exact raised
          · cases impossible
          · cases impossible
        intro reply told
        rw [quiet] at told
        cases told
      | some fetch =>
        have occupied : { tail with mode := some fetch }.mode.isSome = true := rfl
        dsimp only
        rw [resolveWaiting_occupied occupied]
        exact Resolved.fetch log mirrors within restWaits fetching send calm quiet judged

end Checking

end Silver.Client
