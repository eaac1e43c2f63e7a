import Silver.Client.Tail.Messages
import Silver.Client.Tail.Pages

/-!
# A contact who was shown another log

A contact's message carries a head that is not on the chain the relay serves us.  The tail
asks for pages, and the exchange ends with an accusation in the contact's name, unless the
head was ahead of us and lies between the checkpoints by the time we are caught up.
-/

namespace Silver.System

open Foundation Protocol Client Bytes Sha256 Tail

/-- A client whose only traffic is the pages it asked for. -/
structure Exchange (Hash : Type) where
  tail : Tail Hash
  asked : List Nat
  events : List (ClientEvent Hash)

/-- The logs a relay has at successive moments, up to a last one. -/
structure Growing {Hash : Type} (moments : Nat -> List (LogEntry Hash))
    (final : List (LogEntry Hash)) : Prop where
  grows : ∀ moment, moments moment <+: moments (moment + 1)
  within : ∀ moment, moments moment <+: final

section Exchange

variable [DecidableEq Hash] (sha256 : Sha256 Hash) (signatures : Signatures)

def Exchange.start (tail : Tail Hash) (peer : UserId) (head : LogHead Hash) : Exchange Hash :=
  let (next, step) := tail.onPeerHead sha256 peer head
  { tail := next, asked := (tail.requested sha256).toList ++ step.send, events := step.events }

/-- The relay answers the oldest request.  The log may grow between the reading of
the entries and that of the head. -/
def Exchange.answer (exchange : Exchange Hash) (atEntries atHead : List (LogEntry Hash))
    (nowMs : Nat) : Exchange Hash :=
  match exchange.asked with
  | [] => exchange
  | index :: rest =>
    let (next, step) := exchange.tail.onEntries sha256 signatures
      (entriesSince atEntries index LOG_PAGE) (headAt sha256 atHead atHead.length) nowMs
    { tail := next, asked := rest ++ step.send, events := exchange.events ++ step.events }

def Exchange.after (moments : Nat -> List (LogEntry Hash)) (clock : Nat -> Nat)
    (exchange : Exchange Hash) : Nat -> Exchange Hash
  | 0 => exchange
  | round + 1 =>
    (exchange.after moments clock round).answer sha256 signatures (moments (2 * round))
      (moments (2 * round + 1)) (clock round)

/-- The exchange is under way: the tail follows the log as it stands, and what it
waits for has been asked. -/
structure Exchange.Underway (chain : List (LogEntry Hash)) (exchange : Exchange Hash)
    (store : LogStore Hash) (length : Nat) : Prop where
  tracking : Tracking sha256 False chain exchange.tail store length
  asked : exchange.asked = (exchange.tail.requested sha256).toList

def Exchange.measure (exchange : Exchange Hash) (bound length : Nat) : Nat ×ₗ Nat ×ₗ Nat :=
  toLex (exchange.tail.weight, toLex (bound - length, exchange.tail.remaining))

def LeftUnchecked (tail : Tail Hash) (index : Nat) : Prop :=
  index <= (tail.ours sha256).index ∧ ¬IsHeld (tail.ours sha256).index index

def Settled (exchanges : Nat -> Exchange Hash) (base : Nat) (peer : UserId) (head : LogHead Hash)
    (rounds : Nat) : Prop :=
  .transparency (.fork (some peer) head.index) ∈ (exchanges rounds).events ∨
    (base < head.index ∧ ∃ round ≤ rounds, LeftUnchecked sha256 (exchanges round).tail head.index)

end Exchange

variable [DecidableEq Hash] {sha256 : Sha256 Hash}
  {final : List (LogEntry Hash)} {last : LogHead Hash}
  {moments : Nat -> List (LogEntry Hash)}

omit [DecidableEq Hash] in
theorem Growing.le (growing : Growing moments final) {early late : Nat} (ordered : early <= late) :
    moments early <+: moments late := by
  induction ordered with
  | refl => exact List.prefix_refl _
  | step _ ih => exact ih.trans (growing.grows _)

theorem Exchange.Underway.answer
    (signatures : Signatures) {exchange : Exchange Hash} {store : LogStore Hash} {round : Nat}
    (chains : ChainsTo sha256 final last) (growing : Growing moments final)
    (underway : exchange.Underway sha256 (moments (2 * round)) store length)
    (unfinished : exchange.asked ≠ []) (nowMs : Nat) :
    ∃ tail step nextStore nextLength,
      exchange.answer sha256 signatures (moments (2 * round)) (moments (2 * round + 1)) nowMs =
        { tail := tail, asked := step.send, events := exchange.events ++ step.events } ∧
      Proceeds sha256 signatures False (moments (2 * round + 1)) exchange.tail length tail step
        nextStore nextLength := by
  obtain ⟨index, rest, asked⟩ := List.exists_cons_of_ne_nil unfinished
  have waits := underway.asked
  rw [asked] at waits
  obtain ⟨rfl, requested⟩ : rest = [] ∧ exchange.tail.requested sha256 = some index := by
    cases wanted : exchange.tail.requested sha256 with
    | none => simp [wanted] at waits
    | some =>
      rw [wanted] at waits
      simp only [Option.toList_some, List.cons.injEq] at waits
      exact ⟨waits.2, congrArg some waits.1.symm⟩
  have grown := growing.grows (2 * round)
  have served := (chains.of_isPrefix (growing.within (2 * round)))
  have page : IsPage sha256 (moments (2 * round + 1)) index (exchange.tail.relies sha256)
      (entriesSince (moments (2 * round)) index LOG_PAGE)
      (headAt sha256 (moments (2 * round + 1)) (moments (2 * round + 1)).length) := by
    refine ⟨(moments (2 * round)).length, _, underway.tracking.relies_le served,
      grown.length_le, .refl, ?_, rfl⟩
    rw [← List.prefix_iff_eq_take.mp grown]
  obtain ⟨nextStore, nextLength, _, proceeds⟩ :=
    onEntries_proceeds (underway.tracking.of_isPrefix grown)
      (chains.of_isPrefix (growing.within (2 * round + 1))) requested page nowMs
  refine ⟨_, _, nextStore, nextLength, ?_, proceeds⟩
  simp [Exchange.answer, asked]

theorem measure_lt_of_proceeds {next : Tail Hash} {step : Step Hash} {store : LogStore Hash}
    (proceeds : Proceeds sha256 signatures trusted chain tail length next step store nextLength)
    (within : nextLength <= bound) :
    (Exchange.mk next nextAsked nextEvents).measure bound nextLength <
      (Exchange.mk tail asked events).measure bound length := by
  unfold Exchange.measure
  rw [Prod.Lex.toLex_lt_toLex, Prod.Lex.toLex_lt_toLex]
  rcases proceeds.lighter with lighter | ⟨noHeavier, _⟩ | ⟨same, rfl, closer⟩
  · exact .inl lighter
  · rcases Nat.lt_or_eq_of_le noHeavier with lighter | same
    · exact .inl lighter
    · exact .inr ⟨same, .inl (by omega)⟩
  · exact .inr ⟨same, .inr ⟨rfl, closer⟩⟩

variable {start : Exchange Hash} {peer : UserId}

theorem Exchange.Underway.round {store : LogStore Hash} {round : Nat}
    (chains : ChainsTo sha256 final last) (growing : Growing moments final)
    (known : head.index <= (moments 0).length)
    (differs : head.hash ≠ (headAt sha256 (moments 0) head.index).hash)
    (underway : (start.after sha256 signatures moments clock round).Underway sha256
      (moments (2 * round)) store length)
    (above : base <= length)
    (settled : Settled sha256 (start.after sha256 signatures moments clock) base peer head round ∨
      (start.after sha256 signatures moments clock round).tail.Pending base peer head)
    (unfinished : (start.after sha256 signatures moments clock round).asked ≠ []) :
    ∃ nextStore nextLength,
      (start.after sha256 signatures moments clock (round + 1)).Underway sha256
        (moments (2 * (round + 1))) nextStore nextLength ∧
      base <= nextLength ∧
      (start.after sha256 signatures moments clock (round + 1)).measure final.length nextLength <
        (start.after sha256 signatures moments clock round).measure final.length length ∧
      (Settled sha256 (start.after sha256 signatures moments clock) base peer head (round + 1) ∨
        (start.after sha256 signatures moments clock (round + 1)).tail.Pending base peer head) := by
  obtain ⟨tail, _, nextStore, nextLength, answered, proceeds⟩ :=
    underway.answer signatures chains growing unfinished (clock round)
  have next : start.after sha256 signatures moments clock (round + 1) = _ := answered
  have within := (growing.within (2 * round + 1)).length_le
  refine ⟨nextStore, nextLength, ⟨?_, ?_⟩, ?_, ?_, ?_⟩
  · rw [next]
    exact proceeds.tracking.of_isPrefix (growing.grows (2 * round + 1))
  · rw [next]
    exact proceeds.send
  · exact Nat.le_trans above proceeds.grown
  · rw [next]
    exact measure_lt_of_proceeds proceeds (Nat.le_trans proceeds.tracking.within within)
  rcases settled with (raised | ⟨beyond, earlier, before, unchecked⟩) | pending
  · refine .inl (.inl ?_)
    rw [next]
    exact List.mem_append_left _ raised
  · exact .inl (.inr ⟨beyond, earlier, Nat.le_succ_of_le before, unchecked⟩)
  have apart : head.hash ≠ (headAt sha256 (moments (2 * round + 1)) head.index).hash := by
    rwa [headAt_of_isPrefix (growing.le (Nat.zero_le _)) known]
  rcases proceeds.judged base peer head above pending apart with
    raised | pending | ⟨beyond, reached, isHeld⟩
  · refine .inl (.inl ?_)
    rw [next]
    exact List.mem_append_right _ raised
  · refine .inr ?_
    rw [next]
    exact pending
  refine .inl (.inr ⟨beyond, round + 1, .refl, ?_⟩)
  have stands := ours_eq proceeds.tracking.log proceeds.tracking.mirrors proceeds.tracking.within
  rw [next, LeftUnchecked, stands]
  exact ⟨reached, isHeld⟩

theorem Exchange.Underway.not_pending {exchange : Exchange Hash} {store : LogStore Hash}
    (underway : exchange.Underway sha256 chain store length) (finished : exchange.asked = []) :
    ¬exchange.tail.Pending base peer head := by
  have nothing := underway.asked
  rw [finished] at nothing
  have unoccupied : exchange.tail.mode = none := by
    match current : exchange.tail.mode with
    | none => rfl
    | some (.advance _ _) | some (.verify _ _ _ _ _) => simp [requested, current] at nothing
  have empty := underway.tracking.idle unoccupied
  rintro (waiting | ⟨occupied, _⟩ | ⟨_, _, _, occupied⟩)
  · rw [empty] at waiting
    cases waiting
  · rw [unoccupied] at occupied
    cases occupied
  rw [unoccupied] at occupied
  cases occupied

theorem Exchange.Underway.ends {store : LogStore Hash} (round : Nat)
    (chains : ChainsTo sha256 final last) (growing : Growing moments final)
    (known : head.index <= (moments 0).length)
    (differs : head.hash ≠ (headAt sha256 (moments 0) head.index).hash)
    (underway : (start.after sha256 signatures moments clock round).Underway sha256
      (moments (2 * round)) store length)
    (above : base <= length)
    (settled : Settled sha256 (start.after sha256 signatures moments clock) base peer head round ∨
      (start.after sha256 signatures moments clock round).tail.Pending base peer head) :
    ∃ rounds, (start.after sha256 signatures moments clock rounds).asked = [] ∧
      Settled sha256 (start.after sha256 signatures moments clock) base peer head rounds := by
  generalize measured :
    (start.after sha256 signatures moments clock round).measure final.length length = measure
  induction measure using WellFoundedLT.induction generalizing round store length with
  | ind measure ih =>
    by_cases finished : (start.after sha256 signatures moments clock round).asked = []
    · refine ⟨round, finished, ?_⟩
      rcases settled with settled | pending
      · exact settled
      · exact absurd pending (underway.not_pending finished)
    obtain ⟨_, _, next, nextAbove, smaller, nextSettled⟩ :=
      underway.round chains growing known differs above settled finished
    exact ih _ (measured ▸ smaller) _ next nextAbove nextSettled rfl

section Unchecked

omit [DecidableEq Hash] in
theorem reported_of_contact (known : head.index <= chain.length) :
    Reported sha256 (False ∨ some peer = none) chain head :=
  ⟨known, by simp⟩

/-- An exchange in which a contact's head, ahead of us, is the only thing the tail
is about, and in which nobody has been accused. -/
structure Exchange.Quiet (sha256 : Sha256 Hash) (chain : List (LogEntry Hash)) (peer : UserId)
    (head : LogHead Hash) (exchange : Exchange Hash) (store : LogStore Hash) (length : Nat) :
    Prop where
  underway : exchange.Underway sha256 chain store length
  mode : exchange.tail.mode = some (.advance head (some peer)) ∨ exchange.tail.mode = none
  deferred : exchange.tail.deferred = []
  events : ∀ event ∈ exchange.events, ¬Accuses event

variable {chain : List (LogEntry Hash)} {head : LogHead Hash} (chains : ChainsTo sha256 chain last)
  (known : head.index <= chain.length)
  (unheld : ¬IsHeld chain.length head.index)
include chains known unheld

/-- Where the head falls between the checkpoints, no answer of the relay breaks the
silence. -/
theorem Exchange.Quiet.answer {exchange : Exchange Hash} {store : LogStore Hash}
    (quiet : exchange.Quiet sha256 chain peer head store length) (nowMs : Nat) :
    ∃ nextStore nextLength,
      (exchange.answer sha256 signatures chain chain nowMs).Quiet sha256 chain peer head
        nextStore nextLength := by
  rcases quiet.mode with advancing | unoccupied
  · have tracking := quiet.underway.tracking
    have stands := ours_eq tracking.log tracking.mirrors tracking.within
    have asked : exchange.asked = [length] := by
      rw [quiet.underway.asked, Tail.requested, advancing, ← stands]
      rfl
    have page : IsPage sha256 chain length (exchange.tail.relies sha256)
        (entriesSince chain length LOG_PAGE) (headAt sha256 chain chain.length) :=
      ⟨chain.length, chain.length, tracking.relies_le chains, .refl, .refl,
        by rw [List.take_length], rfl⟩
    have room : length < exchange.tail.relies sha256 := by
      simp only [Tail.relies, advancing, stands]
      omega
    obtain ⟨stop, upTo, moved, ordered, _, inside, entries, atEnd⟩ := page.spec chains room
    have caught : chain.length = upTo := by
      have same := congrArg LogHead.index atEnd
      rwa [chains.index_headAt .refl, chains.index_headAt inside] at same
    subst caught
    obtain ⟨next, mirrors, advanced⟩ := onAdvance_eq signatures tracking.mirrors chains moved
      ordered inside { exchange.tail with mode := none } head (some peer) nowMs
    have answered : exchange.answer sha256 signatures chain chain nowMs =
        let result := { exchange.tail with mode := none }.onAdvance sha256 signatures store head
          (some peer) ((chain.take stop).drop length) (headAt sha256 chain chain.length) nowMs
        { tail := result.1
          asked := result.2.send
          events := exchange.events ++ result.2.events } := by
      simp [Exchange.answer, asked, entries, Tail.onEntries, tracking.log, advancing]
    have quietly : ∀ step, Calm step ->
        ∀ event ∈ exchange.events ++ step.events, ¬Accuses event := by
      intro step calm event mem
      rcases List.mem_append.mp mem with mem | mem
      · exact quiet.events event mem
      · exact calm event mem
    refine ⟨next, stop, ?_⟩
    rw [answered, advanced]
    by_cases behind : stop < chain.length
    · rw [if_pos behind]
      refine ⟨⟨⟨rfl, inside.trans' ordered, mirrors, ⟨behind, reported_of_contact known⟩, ?_, (by rintro ⟨⟩)⟩, rfl⟩,
        .inl rfl, quiet.deferred, quietly _ (calm_of_events_eq_nil rfl)⟩
      exact tracking.waiting
    rw [if_neg behind]
    obtain ⟨synced, _, noted, noteSend, _, noteCalm⟩ :=
      noteSynced_spec { exchange.tail with mode := none, log := some next } next.head
    obtain rfl : stop = chain.length := by omega
    have silent : judgeTarget sha256 next head (some peer) = Step.empty := by
      rw [judgeTarget_eq mirrors chains inside known]
      exact if_neg (fun held => unheld held.1)
    have nothing : { exchange.tail with mode := none, log := some next, lastSynced := synced
        }.resolveDeferred sha256 signatures next = 
        ({ exchange.tail with
            mode := none, log := some next, lastSynced := synced, deferred := [] },
          Step.empty) := by
      simp [Tail.resolveDeferred, quiet.deferred, Tail.resolveWaiting]
    dsimp only
    rw [noted, silent]
    dsimp only
    rw [nothing]
    refine ⟨⟨⟨rfl, inside, mirrors, trivial, by simp, fun _ => rfl⟩, ?_⟩, .inr rfl, rfl,
      quietly _ (Calm.append (Calm.append ?_ noteCalm) ?_)⟩
    · simp [Step.empty, noteSend, requested]
    · exact calm_of_events_eq_nil rfl
    · exact calm_of_events_eq_nil rfl
  have asked : exchange.asked = [] := by
    rw [quiet.underway.asked, requested, unoccupied]
    rfl
  have unchanged : exchange.answer sha256 signatures chain chain nowMs = exchange := by
    simp [Exchange.answer, asked]
  rw [unchanged]
  exact ⟨store, length, quiet⟩

end Unchecked

section Examples

variable (sha256)

def steadyLog : Nat -> List (LogEntry Hash)
  | 0 => []
  | count + 1 =>
    steadyLog count ++
      [LogEntry.after (headAt sha256 (steadyLog count) count) sha256.zero .bundle sha256.zero 0]

omit [DecidableEq Hash] in
@[simp] theorem length_steadyLog (count : Nat) : (steadyLog sha256 count).length = count := by
  induction count with
  | zero => rfl
  | succ count ih => simp [steadyLog, ih]

theorem steadyLog_chains (count : Nat) : ∃ head, ChainsTo sha256 (steadyLog sha256 count) head := by
  induction count with
  | zero => exact ⟨_, chainsTo_nil⟩
  | succ count ih =>
    obtain ⟨head, chains⟩ := ih
    have atEnd : head = headAt sha256 (steadyLog sha256 count) count := by
      have ends := chains.eq_headAt
      rwa [length_steadyLog] at ends
    subst atEnd
    have extended : ∃ next, run (LogHead.extend sha256)
        (headAt sha256 (steadyLog sha256 count) count)
        [LogEntry.after (headAt sha256 (steadyLog sha256 count) count) sha256.zero .bundle
          sha256.zero 0] = some next := by
      rw [run_cons, extend_after]
      exact ⟨_, rfl⟩
    obtain ⟨next, extended⟩ := extended
    exact ⟨next, chains.append extended⟩

end Examples

end Silver.System
