import Silver.Client.Tail.Tracking

/-!
# Pages of the chain

What a tail does with the page it asked for.  The store or the cursor moves on,
or the fetch ends and what waited is dealt with; either way there is less left to
do, and a contact's false head is still to be judged unless it was just judged or
passed over.
-/

namespace Silver.Client

open Foundation Protocol List Step Tail

def Tail.remaining {Hash : Type} (tail : Tail Hash) : Nat :=
  match tail.mode with
  | some (.verify cursor _ finish _ _) => finish.index - cursor.index
  | _ => 0

variable [DecidableEq Hash] {sha256 : Sha256 Hash}
  {chain : List (LogEntry Hash)}

/-- What handling a page leads to. -/
structure Proceeds (sha256 : Sha256 Hash) (signatures : Signatures) (trusted : Prop)
    (chain : List (LogEntry Hash)) (tail : Tail Hash) (length : Nat) (next : Tail Hash)
    (step : Step Hash) (nextStore : LogStore Hash) (nextLength : Nat) : Prop where
  tracking : Tracking sha256 trusted chain next nextStore nextLength
  grown : length <= nextLength
  send : step.send = (next.requested sha256).toList
  calm : trusted -> Calm step
  left : ∃ dealt, tail.deferred = dealt ++ next.deferred
  lighter : next.weight < tail.weight ∨ (next.weight <= tail.weight ∧ length < nextLength) ∨
    (next.weight = tail.weight ∧ nextLength = length ∧ next.remaining < tail.remaining)
  judged : ∀ base peer head, base <= length -> tail.Pending base peer head ->
    head.hash ≠ (headAt sha256 chain head.index).hash ->
      Convicts peer head.index step ∨ next.Pending base peer head ∨
        (base < head.index ∧ head.index <= nextLength ∧ ¬IsHeld nextLength head.index)
  replies : ∀ reply ∈ step.replies, ∃ answer index, .answer answer ∈ tail.deferred ∧
    answer.result.head = some (headAt sha256 chain index) ∧ index <= nextLength ∧
      reply ∈ (resolve sha256 signatures nextStore answer).replies

variable {tail : Tail Hash} {length : Nat}

theorem Proceeds.deals {next : Tail Hash} {step : Step Hash}
    (proceeds : Proceeds sha256 scheme trusted chain tail length next step nextStore nextLength) :
    Deals sha256 scheme chain (fun answer => .answer answer ∈ tail.deferred) next step where
  waits := by
    intro answer waiting
    obtain ⟨_, split⟩ := proceeds.left
    rw [split]
    exact mem_append_right _ waiting
  replies := by
    intro reply told
    obtain ⟨answer, index, pending, came, reached, given⟩ := proceeds.replies reply told
    exact ⟨answer, index, nextStore, nextLength, pending, came, reached,
      proceeds.tracking.within, proceeds.tracking.mirrors, given⟩

theorem apply_next
    (mirrors : Mirrors sha256 store (chain.take length)) (chains : ChainsTo sha256 chain last)
    (ordered : length <= stop) (nowMs : Nat) :
    ∃ next, store.apply sha256 ((chain.take stop).drop length) nowMs = .ok next ∧
      Mirrors sha256 next (chain.take stop) := by
  have ended : run (LogHead.extend sha256) store.head ((chain.take stop).drop length) =
      some (headAt sha256 chain stop) := by
    rw [mirrors.head_eq chains]
    exact chains.run_between ordered
  obtain ⟨next, applied⟩ : ∃ next,
      store.apply sha256 ((chain.take stop).drop length) nowMs = .ok next :=
    ⟨_, apply_eq_ok.mpr ⟨_, ended, rfl⟩⟩
  refine ⟨next, applied, ?_⟩
  have grown := mirrors.apply applied
  have joined : chain.take length ++ (chain.take stop).drop length = chain.take stop := by
    have start : chain.take length = (chain.take stop).take length := by
      rw [take_take, Nat.min_eq_left ordered]
    rw [start, take_append_drop]
  rw [joined] at grown
  exact grown

theorem noteSynced_spec (tail : Tail Hash) (head : LogHead Hash) :
    ∃ synced step, tail.noteSynced head = ({ tail with lastSynced := synced }, step) ∧
      step.send = [] ∧ step.replies = [] ∧ Calm step := by
  unfold noteSynced
  split
  · exact ⟨tail.lastSynced, empty, rfl, rfl, rfl, calm_of_events_eq_nil rfl⟩
  refine ⟨some head, raise (.synced head), rfl, rfl, rfl, ?_⟩
  intro _ mem
  rw [raise, mem_singleton] at mem
  subst mem
  exact id

theorem onAdvance_eq (scheme : Signatures) (mirrors : Mirrors sha256 store (chain.take length))
    (chains : ChainsTo sha256 chain last)
    (moved : length < stop) (ordered : stop <= upTo) (inside : upTo <= chain.length)
    (tail : Tail Hash) (target : LogHead Hash) (origin : Option UserId) (nowMs : Nat) :
    ∃ next, Mirrors sha256 next (chain.take stop) ∧
      tail.onAdvance sha256 scheme store target origin ((chain.take stop).drop length)
          (headAt sha256 chain upTo) nowMs =
        if stop < upTo then { tail with log := some next }.startAdvance sha256 target origin
        else
          let noted := { tail with log := some next }.noteSynced next.head
          let resolved := noted.1.resolveDeferred sha256 scheme next
          (resolved.1, judgeTarget sha256 next target origin ++ noted.2 ++ resolved.2) := by
  obtain ⟨next, applied, mirrors⟩ := apply_next mirrors chains (Nat.le_of_lt moved) nowMs
  have stands := mirrors.head_index (by omega)
  have someEntries : (chain.take stop).drop length ≠ [] := by
    intro nothing
    have := congrArg List.length nothing
    rw [length_drop, length_take, length_nil] at this
    omega
  have agrees : ¬(stop = upTo ∧ next.head.hash ≠ (headAt sha256 chain upTo).hash) := by
    rintro ⟨rfl, apart⟩
    rw [mirrors.head_eq chains] at apart
    exact apart rfl
  refine ⟨next, mirrors, ?_⟩
  unfold onAdvance
  rw [applied]
  dsimp only
  rw [stands, chains.index_headAt inside, if_neg someEntries, if_neg agrees]

section

variable {head : LogHead Hash}
  (tracking : Tracking sha256 trusted chain tail store length) (chains : ChainsTo sha256 chain last)
include tracking chains

/-- A page for an advance. -/
theorem onAdvance_proceeds (advancing : tail.mode = some (.advance target origin))
    (page : IsPage sha256 chain length (tail.relies sha256) entries head) (nowMs : Nat) :
    ∃ nextStore nextLength, nextLength <= max length head.index ∧
      Proceeds sha256 scheme trusted chain tail length
        ({ tail with mode := none }.onAdvance sha256 scheme store target origin entries head
          nowMs).1
        ({ tail with mode := none }.onAdvance sha256 scheme store target origin entries head
          nowMs).2
        nextStore nextLength := by
  have relies : tail.relies sha256 = max (length + 1) target.index := by
    rw [relies, advancing, ours_eq tracking.log tracking.mirrors tracking.within]
  obtain ⟨_, reported⟩ : length < chain.length ∧
      Reported sha256 (trusted ∨ origin = none) chain target := by
    have fetching := tracking.fetching
    rwa [advancing] at fetching
  obtain ⟨stop, upTo, moved, ordered, _, inside, rfl, rfl⟩ := page.spec chains (by omega)
  obtain ⟨next, mirrors, advanced⟩ := onAdvance_eq scheme tracking.mirrors
    chains moved ordered inside { tail with mode := none } target origin nowMs
  have within : stop <= chain.length := by omega
  refine ⟨next, stop, ?_, ?_⟩
  · rw [chains.index_headAt inside]
    omega
  rw [advanced]
  by_cases behind : stop < upTo
  · -- More is to come: the advance goes on.
    rw [if_pos behind]
    refine ⟨⟨rfl, within, mirrors, ⟨by omega, reported⟩, tracking.waiting, nofun⟩, ?_, rfl,
      fun _ => calm_of_events_eq_nil rfl, ⟨[], rfl⟩, ?_, ?_, nofun⟩
    · omega
    · refine .inr (.inl ⟨?_, moved⟩)
      simp [startAdvance, weight]
    intro base peer head _ pending _
    rcases pending with waiting | ⟨same, beyond⟩ | ⟨_, _, _, impossible⟩
    · exact .inr (.inl (.inl waiting))
    · rw [advancing] at same
      exact .inr (.inl (.inr (.inl ⟨same, beyond⟩)))
    rw [advancing] at impossible
    cases impossible
  -- Caught up with the relay.
  rw [if_neg behind]
  dsimp only
  obtain ⟨synced, _, noted, noteSend, noteReplies, noteCalm⟩ :=
    noteSynced_spec { tail with mode := none, log := some next } next.head
  rw [noted]
  have resolved : Resolved sha256 scheme trusted chain next stop tail.deferred
      ({ tail with mode := none, log := some next, lastSynced := synced }.resolveDeferred
        sha256 scheme next).1
      ({ tail with mode := none, log := some next, lastSynced := synced }.resolveDeferred
        sha256 scheme next).2 :=
    resolveWaiting_resolved rfl rfl mirrors chains within tracking.waiting
  have reached : target.index <= stop := by omega
  have judge := judgeTarget_eq mirrors chains within reached origin
  refine ⟨resolved.tracking, by omega, ?_, ?_, resolved.left, ?_, ?_, ?_⟩
  · rw [judge]
    split <;> simpa [raise, empty, noteSend] using resolved.send
  · intro isTrusted
    refine Calm.append (Calm.append ?_ noteCalm) (resolved.calm isTrusted)
    have onChain := reported.onChain (.inl isTrusted)
    have same : (headAt sha256 chain target.index).hash = target.hash := by
      rw [← onChain]
    rw [judge, if_neg (fun wrong => wrong.2 same)]
    exact calm_of_events_eq_nil rfl
  · refine .inr (.inl ⟨?_, moved⟩)
    have light := resolved.weight
    simp only [weight, advancing]
    exact light
  · intro base peer head _ pending apart
    rcases pending with waiting | ⟨same, beyond⟩ | ⟨_, _, _, impossible⟩
    · rcases resolved.judged base peer head (by omega) waiting apart with raised | pending
      · exact .inl (mem_append_right _ raised)
      · exact .inr (.inl pending)
    · rw [advancing] at same
      cases same
      by_cases isHeld : IsHeld stop target.index
      · refine .inl (mem_append_left _ (mem_append_left _ ?_))
        rw [judge, if_pos ⟨isHeld, fun equal => apart equal.symm⟩]
        exact mem_singleton_self _
      · exact .inr (.inr ⟨beyond, reached, isHeld⟩)
    rw [advancing] at impossible
    cases impossible
  intro reply told
  have quiet : (judgeTarget sha256 next target origin).replies = [] := by
    rw [judge]
    split <;> rfl
  simp only [replies_append, quiet, noteReplies, nil_append] at told
  exact resolved.replies reply told

/-- A page for a verification. -/
theorem onVerify_proceeds {check finish : LogHead Hash}
    (verifying : tail.mode = some (.verify cursor check finish peer matched))
    (page : IsPage sha256 chain cursor.index (tail.relies sha256) entries head) :
    Proceeds sha256 scheme trusted chain tail length
      ({ tail with mode := none }.onVerify sha256 scheme store cursor check finish peer
        matched entries).1
      ({ tail with mode := none }.onVerify sha256 scheme store cursor check finish peer
        matched entries).2
      store length := by
  have within := tracking.within
  obtain ⟨start, stop, rfl, rfl, ordered, inside, passes, reported, rfl⟩ :
      ∃ start stop, cursor = headAt sha256 chain start ∧ finish = headAt sha256 chain stop ∧
        start < stop ∧ stop <= length ∧ check.index < stop ∧
        Reported sha256 trusted chain check ∧ matched = verdict sha256 chain check start := by
    have fetching := tracking.fetching
    rwa [verifying] at fetching
  have relies : tail.relies sha256 = stop := by
    rw [relies, verifying]
    exact chains.index_headAt (by omega)
  rw [relies, chains.index_headAt (by omega)] at page
  obtain ⟨read, _, moved, _, _, _, rfl, rfl⟩ := page.spec chains ordered
  have someEntries : (chain.take read).drop start ≠ [] := by
    intro nothing
    have := congrArg List.length nothing
    rw [length_drop, length_take, length_nil] at this
    omega
  have weightless : tail.weight = tail.deferred.length + 1 := by
    rw [weight, verifying]
  unfold onVerify
  rw [scan_eq chains check (by omega) (by omega) ordered (by omega)]
  by_cases done : stop <= read
  · -- The segment is genuine, and the head has been compared on the way.
    rw [if_pos done]
    dsimp only
    have resolved : Resolved sha256 scheme trusted chain store length tail.deferred
        ({ tail with mode := none }.resolveDeferred sha256 scheme store).1
        ({ tail with mode := none }.resolveDeferred sha256 scheme store).2 :=
      resolveWaiting_resolved tracking.log rfl tracking.mirrors chains within tracking.waiting
    have compared : verdict sha256 chain check stop =
        some (decide ((headAt sha256 chain check.index).hash = check.hash)) :=
      if_pos (by omega)
    rw [compared]
    refine ⟨resolved.tracking, .refl, ?_, ?_, resolved.left, .inl ?_, ?_, ?_⟩
    · split <;> simpa [raise, empty] using resolved.send
    · intro isTrusted
      refine Calm.append ?_ (resolved.calm isTrusted)
      have same : (headAt sha256 chain check.index).hash = check.hash := by
        rw [← reported.onChain isTrusted]
      rw [if_neg (by simp [same])]
      exact calm_of_events_eq_nil rfl
    · have light := resolved.weight
      omega
    · intro base other head atMost pending apart
      rcases pending with waiting | ⟨impossible, _⟩ | ⟨_, _, _, same⟩
      · rcases resolved.judged base other head atMost waiting apart with raised | pending
        · exact .inl (mem_append_right _ raised)
        · exact .inr (.inl pending)
      · rw [verifying] at impossible
        cases impossible
      rw [verifying] at same
      cases same
      refine .inl (mem_append_left _ ?_)
      rw [if_pos (by simpa using fun equal => apart equal.symm)]
      exact mem_singleton_self _
    intro reply told
    refine resolved.replies reply ?_
    rw [replies_append, mem_append] at told
    rcases told with told | told
    · split at told <;> cases told
    · exact told
  -- The end of the segment is still to come.
  rw [if_neg done]
  dsimp only
  rw [if_neg someEntries]
  refine ⟨{ tracking with within, fetching := ?_, idle := by simp },
    .refl, rfl, fun _ => calm_of_events_eq_nil rfl, ⟨[], rfl⟩,
    .inr (.inr ⟨?_, rfl, ?_⟩), ?_, (fun _ h => by cases h)⟩
  · exact ⟨read, stop, rfl, rfl, by omega, inside, passes, reported, rfl⟩
  · rw [weightless]
    rfl
  · simp only [remaining, verifying]
    rw [chains.index_headAt (by omega), chains.index_headAt (by omega),
      chains.index_headAt (by omega)]
    omega
  intro base other head _ pending _
  rcases pending with waiting | ⟨impossible, _⟩ | ⟨_, _, _, same⟩
  · exact .inr (.inl (.inl waiting))
  · rw [verifying] at impossible
    cases impossible
  rw [verifying] at same
  cases same
  exact .inr (.inl (.inr (.inr ⟨_, _, _, rfl⟩)))

theorem onEntries_proceeds (requested : tail.requested sha256 = some index)
    (page : IsPage sha256 chain index (tail.relies sha256) entries head) (nowMs : Nat) :
    ∃ nextStore nextLength, nextLength <= max length head.index ∧
      Proceeds sha256 scheme trusted chain tail length
        (tail.onEntries sha256 scheme entries head nowMs).1
        (tail.onEntries sha256 scheme entries head nowMs).2
        nextStore nextLength := by
  match current : tail.mode with
  | none =>
    rw [Tail.requested, current] at requested
    cases requested
  | some (.advance target origin) =>
    have ours := ours_eq tracking.log tracking.mirrors tracking.within
    rw [Tail.requested, current, Option.some.injEq, ours] at requested
    subst requested
    have handled : tail.onEntries sha256 scheme entries head nowMs =
        { tail with mode := none }.onAdvance sha256 scheme store target origin entries head
          nowMs := by
      simp [onEntries, tracking.log, current]
    rw [handled]
    exact onAdvance_proceeds tracking chains current page nowMs
  | some (.verify cursor check finish peer matched) =>
    rw [Tail.requested, current, Option.some.injEq] at requested
    subst requested
    have handled : tail.onEntries sha256 scheme entries head nowMs =
        { tail with mode := none }.onVerify sha256 scheme store cursor check finish peer
          matched entries := by
      simp [onEntries, tracking.log, current]
    rw [handled]
    exact ⟨store, length, Nat.le_max_left _ _, onVerify_proceeds tracking chains current page⟩

end

end Silver.Client
