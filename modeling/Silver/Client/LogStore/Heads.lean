import Silver.Client.LogStore.Replayed

/-!
# Which heads a store can speak to

A store that mirrors the first entries of a chain holds, of the heads on it, the
first, the last, and the checkpoints the thinning keeps.  An index between
checkpoints is reached by replaying the segment between the checkpoints on either
side.
-/

namespace Silver.Client

open Foundation Protocol LogStore List

def IsKept (length index : Nat) : Prop :=
  length - DENSE < index ∨ index % SPARSE = 0
deriving Decidable

def IsHeld (length index : Nat) : Prop :=
  index = 0 ∨ index = length ∨ IsKept length index
deriving Decidable

variable [DecidableEq Hash]

namespace Mirrors

variable {chain : List (LogEntry Hash)}
  {length : Nat}

theorem head_eq
    (mirrors : Mirrors sha256 store (chain.take length)) (chains : ChainsTo sha256 chain last) :
    store.head = headAt sha256 chain length :=
  mirrors.chains.unique (chains.take length)

theorem head_index
    (mirrors : Mirrors sha256 store (chain.take length)) (within : length <= chain.length) :
    store.head.index = length := by
  rw [mirrors.chains.index_eq, length_take, Nat.min_eq_left within]

section

variable (mirrors : Mirrors sha256 store (chain.take length))
  (chains : ChainsTo sha256 chain last) (within : length <= chain.length)
include mirrors chains within

theorem mem_checkpoints (checkpoint : LogHead Hash) : checkpoint ∈ store.checkpoints ↔
      ∃ index, 0 < index ∧ index <= length ∧ IsKept length index ∧
        checkpoint = headAt sha256 chain index := by
  rw [mirrors.checkpoints, checkpointsOf, length_take, Nat.min_eq_left within, mem_filter, mem_map]
  constructor
  · rintro ⟨⟨entry, mem, rfl⟩, isKept⟩
    obtain ⟨position, stands⟩ := mem_iff_getElem?.mp mem
    have onChain : chain[position]? = some entry := by
      rw [getElem?_take] at stands
      split at stands
      · exact stands
      · cases stands
    have below : position < length := by
      have := (List.getElem?_eq_some_iff.mp stands).1
      rw [length_take] at this
      omega
    have numbered : (entry.head sha256).index = position + 1 := chains.index_entry onChain
    refine ⟨position + 1, by omega, by omega, ?_, (headAt_succ onChain).symm⟩
    simpa [kept, IsKept, numbered] using isKept
  rintro ⟨index, _, below, isKept, rfl⟩
  obtain ⟨position, rfl⟩ : ∃ position, index = position + 1 := ⟨index - 1, by omega⟩
  have inside : position < chain.length := by omega
  have stands : chain[position]? = some chain[position] := getElem?_eq_getElem inside
  refine ⟨⟨chain[position], ?_, (headAt_succ stands).symm⟩, ?_⟩
  · apply mem_iff_getElem?.mpr
    exact ⟨position, by rw [getElem?_take, if_pos (by omega), stands]⟩
  simpa [kept, IsKept, chains.index_headAt (by omega : position + 1 <= chain.length)] using isKept

theorem hashAt_eq (below : index <= length) : store.hashAt sha256 index =
      if IsHeld length index then some (headAt sha256 chain index).hash else none := by
  unfold hashAt
  rw [mirrors.head_index within]
  by_cases isZero : index = 0
  · simp [isZero, IsHeld]
  by_cases isHead : index = length
  · subst isHead
    have isHeld : IsHeld index index := .inr (.inl rfl)
    rw [if_neg isZero, if_pos rfl, if_pos isHeld, mirrors.head_eq chains]
  rw [if_neg isZero, if_neg isHead]
  by_cases isKept : IsKept length index
  · have isHeld : IsHeld length index := .inr (.inr isKept)
    rw [if_pos isHeld]
    cases found : store.checkpoints.find? fun checkpoint => checkpoint.index = index with
    | none =>
      rw [find?_eq_none] at found
      have mem := (mirrors.mem_checkpoints chains within (headAt sha256 chain index)).mpr
        ⟨index, by omega, below, isKept, rfl⟩
      have numbered := chains.index_headAt (by omega : index <= chain.length)
      exact absurd numbered (by simpa using found _ mem)
    | some checkpoint =>
      obtain ⟨other, _, upTo, _, rfl⟩ :=
        (mirrors.mem_checkpoints chains within _).mp (mem_of_find?_eq_some found)
      have numbered := find?_some found
      rw [decide_eq_true_eq, chains.index_headAt (by omega : other <= chain.length)] at numbered
      simp [numbered]
  have unheld : ¬IsHeld length index := by
    rintro (zero | head | kept)
    · exact isZero zero
    · exact isHead head
    · exact isKept kept
  rw [if_neg unheld, Option.map_eq_none_iff, find?_eq_none]
  intro checkpoint mem numbered
  obtain ⟨other, _, upTo, otherKept, rfl⟩ := (mirrors.mem_checkpoints chains within _).mp mem
  rw [decide_eq_true_eq, chains.index_headAt (by omega : other <= chain.length)] at numbered
  exact isKept (numbered ▸ otherKept)

theorem canCheck_eq (below : index <= length) :
    store.canCheck sha256 index = decide (IsHeld length index) := by
  unfold canCheck
  rw [mirrors.hashAt_eq chains within below, mirrors.head_index within]
  by_cases isHeld : IsHeld length index
  · simp [isHeld]
  have notZero : index ≠ 0 := fun zero => isHeld (.inl zero)
  have notHead : index ≠ length := fun head => isHeld (.inr (.inl head))
  simp [isHeld, notZero, notHead]

theorem checkpointBelow_spec (unheld : ¬IsHeld length index) :
    ∃ below, below < index ∧ below <= length ∧
      store.checkpointBelow sha256 index = headAt sha256 chain below := by
  unfold checkpointBelow
  have positive : index ≠ 0 := fun zero => unheld (.inl zero)
  cases found : (store.checkpoints.takeWhile fun checkpoint =>
      checkpoint.index <= index).getLast? with
  | none => exact ⟨0, by omega, by omega, rfl⟩
  | some checkpoint =>
    have mem := mem_of_getLast? found
    have atMost := mem_takeWhile_imp mem
    obtain ⟨other, _, upTo, isKept, rfl⟩ := (mirrors.mem_checkpoints chains within _).mp
      ((takeWhile_sublist _).subset mem)
    rw [decide_eq_true_eq, chains.index_headAt (by omega : other <= chain.length)] at atMost
    have apart : other ≠ index := by
      rintro rfl
      exact unheld (.inr (.inr isKept))
    exact ⟨other, by omega, upTo, rfl⟩

theorem checkpointAbove_spec (below : index <= length) (unheld : ¬IsHeld length index) :
    ∃ above, index < above ∧ above <= length ∧
      store.checkpointAbove index = headAt sha256 chain above := by
  unfold checkpointAbove
  have notHead : index ≠ length := fun head => unheld (.inr (.inl head))
  have atHead : ∃ above, index < above ∧ above <= length ∧ store.head = headAt sha256 chain above :=
    ⟨length, by omega, .refl, mirrors.head_eq chains⟩
  cases found : ((store.checkpoints.dropWhile fun checkpoint =>
      checkpoint.index < index).head?).filter
        fun checkpoint => checkpoint.index <= store.head.index with
  | none => exact atHead
  | some checkpoint =>
    obtain ⟨first, _⟩ := Option.filter_eq_some_iff.mp found
    have mem : checkpoint ∈ store.checkpoints :=
      (dropWhile_sublist _).subset (mem_of_mem_head? first)
    have notBelow := head?_dropWhile_not
      (fun checkpoint : LogHead Hash => decide (checkpoint.index < index)) store.checkpoints
    rw [first] at notBelow
    obtain ⟨other, _, upTo, isKept, rfl⟩ := (mirrors.mem_checkpoints chains within _).mp mem
    simp only [decide_eq_false_iff_not,
      chains.index_headAt (by omega : other <= chain.length)] at notBelow
    have apart : other ≠ index := by
      rintro rfl
      exact unheld (.inr (.inr isKept))
    exact ⟨other, by omega, upTo, rfl⟩

end

end Mirrors

section Calls

/-- A call that changes a store. -/
inductive LogCall (Hash : Type) where
  | apply (entries : List (LogEntry Hash)) (nowMs : Nat)
  | reset (rewound : Bool) (theirs : LogHead Hash) (nowMs : Nat)

def LogCall.perform (sha256 : Sha256 Hash) (state : LogStore Hash × List (LogEntry Hash)) :
    LogCall Hash -> Option ReplayError × LogStore Hash × List (LogEntry Hash)
  | .apply entries nowMs =>
    match state.1.apply sha256 entries nowMs with
    | .error error => (some error, state)
    | .ok store => (none, store, state.2 ++ entries)
  | .reset rewound theirs nowMs => (none, state.1.reset sha256 rewound theirs nowMs, [])

def LogCall.performAll (sha256 : Sha256 Hash) (calls : List (LogCall Hash)) :
    LogStore Hash × List (LogEntry Hash) :=
  calls.foldl (fun state call => (call.perform sha256 state).2) (LogStore.empty sha256 [], [])

theorem LogCall.mirrors_performAll (calls : List (LogCall Hash)) :
    Mirrors sha256 (performAll sha256 calls).1 (performAll sha256 calls).2 := by
  induction calls using reverseRecOn with
  | nil => exact Mirrors.empty []
  | append_singleton calls call ih =>
    have last : performAll sha256 (calls ++ [call]) =
        (call.perform sha256 (performAll sha256 calls)).2 := by
      rw [performAll, foldl_append]
      rfl
    rw [last]
    cases call with
    | apply entries nowMs =>
      cases applied : (performAll sha256 calls).1.apply sha256 entries nowMs with
      | error error =>
        simp only [perform, applied]
        exact ih
      | ok =>
        simp only [perform, applied]
        exact ih.apply applied
    | reset _ _ nowMs => exact Mirrors.empty _

namespace Mirrors

variable {log : List (LogEntry Hash)} (mirrors : Mirrors sha256 store log)
include mirrors

theorem whole : Mirrors sha256 store (log.take log.length) := by
  rw [take_length]
  exact mirrors

theorem mem_checkpoints_whole (checkpoint : LogHead Hash) :
    checkpoint ∈ store.checkpoints ↔ 0 < checkpoint.index ∧ checkpoint.index <= log.length ∧
      IsKept log.length checkpoint.index ∧ checkpoint = headAt sha256 log checkpoint.index := by
  rw [mirrors.whole.mem_checkpoints mirrors.chains .refl]
  constructor
  · rintro ⟨index, positive, below, isKept, rfl⟩
    rw [mirrors.chains.index_headAt below]
    exact ⟨positive, below, isKept, rfl⟩
  rintro ⟨positive, below, isKept, same⟩
  exact ⟨checkpoint.index, positive, below, isKept, same⟩

theorem checkpoints_sorted : (store.checkpoints.map LogHead.index).Pairwise (· < ·) := by
  have numbered : (log.map (LogEntry.head sha256)).map LogHead.index = range' 1 log.length := by
    apply ext_getElem?
    intro position
    rw [map_map, getElem?_map]
    cases stands : log[position]? with
    | none => simpa [getElem?_eq_none_iff] using stands
    | some =>
      have within := (List.getElem?_eq_some_iff.mp stands).1
      simp [within, LogEntry.head, mirrors.chains.index_entry stands, Nat.add_comm]
  have sorted := pairwise_lt_range' (s := 1) (n := log.length)
  rw [← numbered] at sorted
  rw [mirrors.checkpoints, checkpointsOf]
  exact sorted.sublist (List.Sublist.map _ filter_sublist)

theorem head_mem_checkpoints (begun : 0 < store.head.index) : store.head ∈ store.checkpoints := by
  have index := mirrors.chains.index_eq
  rw [mirrors.mem_checkpoints_whole, index]
  refine ⟨index ▸ begun, .refl, .inl ?_, mirrors.chains.eq_headAt⟩
  simp only [DENSE]
  omega

theorem checkPeerHead_of_held {head : LogHead Hash} (below : head.index <= store.head.index)
    (held : IsHeld log.length head.index) :
    store.checkPeerHead sha256 head =
      if head.hash = (headAt sha256 log head.index).hash then .consistent else .fork head.index := by
  have index := mirrors.chains.index_eq
  rw [checkPeerHead, if_neg (by omega),
    mirrors.whole.hashAt_eq mirrors.chains .refl (index ▸ below), if_pos held]
  simp only [eq_comm]

omit [DecidableEq Hash] mirrors in
theorem checkpointBelow_mem (index : Nat) :
    store.checkpointBelow sha256 index ∈ LogHead.EMPTY sha256 :: store.checkpoints := by
  unfold checkpointBelow
  cases found : (store.checkpoints.takeWhile fun checkpoint => checkpoint.index <= index).getLast? with
  | none => exact .head _
  | some checkpoint => exact .tail _ ((takeWhile_sublist _).subset (mem_of_getLast? found))

omit [DecidableEq Hash] mirrors in
theorem checkpointAbove_mem (index : Nat) :
    store.checkpointAbove index ∈ store.head :: store.checkpoints := by
  unfold checkpointAbove
  cases found : ((store.checkpoints.dropWhile fun checkpoint => checkpoint.index < index).head?).filter
      fun checkpoint => checkpoint.index <= store.head.index with
  | none => exact .head _
  | some checkpoint =>
    exact .tail _ ((dropWhile_sublist _).subset
      (mem_of_mem_head? (Option.filter_eq_some_iff.mp found).1))

theorem isHeld_iff (below : index <= log.length) : IsHeld log.length index ↔
      index = 0 ∨ ∃ checkpoint ∈ store.checkpoints, checkpoint.index = index := by
  have numbered := mirrors.chains.index_headAt below
  constructor
  · intro held
    by_cases zero : index = 0
    · exact .inl zero
    refine .inr ⟨headAt sha256 log index, ?_, numbered⟩
    rw [mirrors.mem_checkpoints_whole, numbered]
    refine ⟨Nat.pos_of_ne_zero zero, below, ?_, rfl⟩
    rcases held with isZero | rfl | isKept
    · exact absurd isZero zero
    · exact .inl (Nat.sub_lt (Nat.pos_of_ne_zero zero) (by decide))
    · exact isKept
  rintro (zero | ⟨checkpoint, mem, rfl⟩)
  · exact .inl zero
  · exact .inr (.inr ((mirrors.mem_checkpoints_whole checkpoint).mp mem).2.2.1)

theorem checkPeerHead_of_unheld {head : LogHead Hash} (below : head.index <= store.head.index)
    (unheld : ¬IsHeld log.length head.index) :
    ∃ start finish, store.checkPeerHead sha256 head = .needEntries start finish ∧
      start.index < head.index ∧ head.index < finish.index ∧
      start ∈ LogHead.EMPTY sha256 :: store.checkpoints ∧ finish ∈ store.checkpoints := by
  have inside : head.index <= log.length := mirrors.chains.index_eq ▸ below
  obtain ⟨start, before, startInside, isStart⟩ :=
    mirrors.whole.checkpointBelow_spec mirrors.chains .refl unheld
  obtain ⟨finish, after, finishInside, isFinish⟩ :=
    mirrors.whole.checkpointAbove_spec mirrors.chains .refl inside unheld
  refine ⟨store.checkpointBelow sha256 head.index, store.checkpointAbove head.index, ?_, ?_, ?_,
    checkpointBelow_mem head.index, ?_⟩
  · rw [checkPeerHead, if_neg (by omega),
      mirrors.whole.hashAt_eq mirrors.chains .refl inside, if_neg unheld]
  · rw [isStart, mirrors.chains.index_headAt startInside]
    exact before
  · rw [isFinish, mirrors.chains.index_headAt finishInside]
    exact after
  rcases mem_cons.mp (checkpointAbove_mem head.index) with isHead | mem
  · rw [isHead]
    exact mirrors.head_mem_checkpoints (by omega)
  · exact mem

end Mirrors

/-- After any calls the checkpoints are in order, carry the hashes of the chain applied
since the last reset, and are those the thinning keeps; each subject's record is what
that chain says of it; a call that fails changes nothing.  A contact's head up to ours
is therefore judged by the chain where its index is held, and otherwise the entries
between the checkpoints around it are asked for. -/
theorem log_store_judges_heads (calls : List (LogCall Hash)) :
    let state := LogCall.performAll sha256 calls
    (state.1.checkpoints.map LogHead.index).Pairwise (· < ·) ∧
    (∀ checkpoint ∈ state.1.head :: state.1.checkpoints,
      checkpoint = headAt sha256 state.2 checkpoint.index) ∧
    (∀ index, 0 < index → index ≤ state.1.head.index → IsKept state.1.head.index index →
      ∃ checkpoint ∈ state.1.checkpoints, checkpoint.index = index) ∧
    (∀ subject, state.1.latest.get subject = latestOf subject state.2) ∧
    (∀ call error, (LogCall.perform sha256 state call).1 = some error →
      (LogCall.perform sha256 state call).2 = state) ∧
    ∀ head, head.index ≤ state.1.head.index →
      if head.index = 0 ∨ ∃ checkpoint ∈ state.1.checkpoints, checkpoint.index = head.index then
        state.1.checkPeerHead sha256 head =
          if head.hash = (headAt sha256 state.2 head.index).hash then .consistent
          else .fork head.index
      else
        ∃ start finish, state.1.checkPeerHead sha256 head = .needEntries start finish ∧
          start.index < head.index ∧ head.index < finish.index ∧
          start ∈ LogHead.EMPTY sha256 :: state.1.checkpoints ∧
          finish ∈ state.1.checkpoints := by
  intro state
  have mirrors : Mirrors sha256 state.1 state.2 := LogCall.mirrors_performAll calls
  have index := mirrors.chains.index_eq
  refine ⟨mirrors.checkpoints_sorted, ?_, ?_, mirrors.latest, ?_, ?_⟩
  · intro checkpoint member
    rcases mem_cons.mp member with rfl | member
    · rw [index]
      exact mirrors.chains.eq_headAt
    · exact ((mirrors.mem_checkpoints_whole checkpoint).mp member).2.2.2
  · intro place positive below isKept
    rw [index] at below isKept
    have held : IsHeld state.2.length place := .inr (.inr isKept)
    exact ((mirrors.isHeld_iff below).mp held).resolve_left (by omega)
  · intro call error failed
    cases call with
    | apply entries nowMs =>
      cases applied : state.1.apply sha256 entries nowMs with
      | error => simp only [LogCall.perform, applied]
      | ok => simp [LogCall.perform, applied] at failed
    | reset _ _ nowMs => cases failed
  intro head below
  have held := mirrors.isHeld_iff (index ▸ below)
  split
  next isHeld => exact mirrors.checkPeerHead_of_held below (held.mpr isHeld)
  next unheld => exact mirrors.checkPeerHead_of_unheld below (mt held.mp unheld)

end Calls

end Silver.Client
