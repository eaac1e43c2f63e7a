import Silver.System.Sequencing.Merging

/-!
# Catching the sequencer up

A member keeps the tokens of the last epochs.  Where the relay's entry has been taken back
to one of them, the steps from there on bring it to where the member is.  Where it has
been taken back further, the member still sends the steps it has.
-/

namespace Silver.System.Sequencing

open Foundation Relay List
open Client.Groups (EpochToken pushToken TOKENS_KEPT)

variable (schedule : Schedule)

/-- A member as it creates or joins the group that a sequence of commits led to. -/
def Client.joined (history : List Nat) (standing : Standing) : Client :=
  { history := history
    tokens := [{ epoch := history.length, token := schedule.token history }]
    standing := standing
    staged := none }

/-- A run of commits merged or received. -/
def Client.follow (client : Client) (bodies : List Nat) : Client :=
  bodies.foldl (fun client body => client.merge schedule ⟨client.history, body⟩) client

/-- The relay takes a step it is sent, or refuses it. -/
def accept (clock : Nat -> Nat) (entry : GroupEntry) (staged : Staged) : Option GroupEntry :=
  match groupCommit schedule.hash entry staged.epoch staged.token staged.next
      (clock staged.epoch) with
  | (.stands _, after) => after
  | _ => none

/-- The steps lead from an epoch of a run to its end, one commit each, and the relay
takes them all: its entry is then as a member there describes it. -/
def Replays (history : List Nat) (epoch : Nat) (steps : List Staged) : Prop :=
  steps.map Staged.epoch = List.range' epoch (history.length - epoch) ∧
    ∀ clock entry, entry.epoch = epoch ->
      entry.next = schedule.hash (schedule.token (history.drop (history.length - epoch))) ->
      ∃ after, run (accept schedule clock) entry steps = some after ∧
        (Client.joined schedule history .active).sequencerEntry schedule =
          some (.create after.epoch after.next)

/-- The steps from an epoch that is kept bring an entry there to where the member is; from
one older than all that are kept, or not below the member's, there are none. -/
structure Client.CatchesUp (client : Client) (epoch : Nat) : Prop where
  steps : (∃ kept ∈ client.tokens, kept.epoch = epoch) -> epoch < client.epoch ->
    Replays schedule client.history epoch (client.catchUp schedule epoch)
  nothing : (∀ kept ∈ client.tokens, epoch < kept.epoch) ∨ client.epoch <= epoch ->
    client.catchUp schedule epoch = []

/-- The tokens of the last histories, the oldest first. -/
def window (history : List Nat) (kept : Nat) : List EpochToken :=
  ((history.tails.take kept).map fun history =>
    { epoch := history.length, token := schedule.token history }).reverse

def stepsOf (epoch : Nat) (tokens : List EpochToken) : List Staged :=
  Client.catchUp schedule ⟨[], tokens, .out, none⟩ epoch

variable {schedule} {epoch kept body : Nat} {history : List Nat}

theorem window_succ (history : List Nat) (kept : Nat) : ∃ older, window schedule history (kept + 1) =
    older ++ [{ epoch := history.length, token := schedule.token history }] := by
  cases history with
  | nil => exact ⟨[], by simp [window]⟩
  | cons _ history => exact ⟨window schedule history kept, by simp [window]⟩

theorem window_cons : window schedule (body :: history) (kept + 1) = window schedule history kept ++
    [{ epoch := history.length + 1, token := schedule.token (body :: history) }] := by
  simp [window]

theorem epoch_of_mem_window {token : EpochToken} (mem : token ∈ window schedule history kept) :
    token.epoch <= history.length ∧ history.length < token.epoch + kept := by
  induction history generalizing kept with
  | nil => cases kept <;> simp_all [window]
  | cons _ history ih =>
    cases kept with
    | zero => simp [window] at mem
    | succ kept =>
      rw [window_cons, mem_append, mem_singleton] at mem
      rw [length_cons]
      rcases mem with older | rfl
      · have bounds := ih older
        omega
      · simp

theorem zip_tail_snoc (items : List α) (last next : α) :
    (items ++ [last] ++ [next]).zip (items ++ [last] ++ [next]).tail =
      (items ++ [last]).zip (items ++ [last]).tail ++ [(last, next)] := by
  induction items with
  | nil => rfl
  | cons _ items => cases items <;> simp_all

theorem stepsOf_window_cons : stepsOf schedule epoch (window schedule (body :: history) (kept + 2)) =
    stepsOf schedule epoch (window schedule history (kept + 1)) ++
      if epoch <= history.length then [Commit.staged schedule ⟨history, body⟩] else [] := by
  obtain ⟨_, ends⟩ := @window_succ schedule history kept
  rw [window_cons, ends]
  simp only [stepsOf, Client.catchUp, zip_tail_snoc, filterMap_append]
  by_cases late : epoch <= history.length
  · simp [late, Commit.staged, Commit.epoch, Commit.after]
  · simp [late]

theorem stepsOf_eq_nil (late : history.length <= epoch) :
    stepsOf schedule epoch (window schedule history kept) = [] := by
  induction history generalizing kept with
  | nil => cases kept <;> simp [stepsOf, window, Client.catchUp]
  | cons _ history ih =>
    match kept with
    | 0 | 1 => rfl
    | kept + 2 =>
      rw [length_cons] at late
      rw [stepsOf_window_cons, ih (by omega), if_neg (by omega), append_nil]

theorem Replays.nil (history : List Nat) : Replays schedule history history.length [] := by
  rw [Replays, Nat.sub_self]
  refine ⟨rfl, fun clock entry stands next => ⟨entry, rfl, ?_⟩⟩
  simp [Client.sequencerEntry, Client.joined, Client.epoch, stands, next]

/-- Each step is accepted where the one before it was. -/
theorem Replays.snoc {steps : List Staged} (replays : Replays schedule history epoch steps)
    (reached : epoch <= history.length) (representable : history.length < LAST_EPOCH) :
    Replays schedule (body :: history) epoch (steps ++ [Commit.staged schedule ⟨history, body⟩]) := by
  rw [Replays, length_cons, Nat.succ_sub reached]
  refine ⟨?_, fun clock entry stands next => ?_⟩
  · rw [map_append, replays.1, range'_concat]
    simp [Commit.staged, Commit.epoch, Nat.add_sub_cancel' reached]
  obtain ⟨_, replayed, described⟩ := replays.2 clock entry stands next
  simp only [Client.sequencerEntry, Client.joined, Client.epoch, if_true, Option.some.injEq,
    Frame.create.injEq] at described
  rw [run_append, replayed]
  simp [run, accept, groupCommit, Commit.staged, Commit.epoch, Commit.after, ← described.1,
    ← described.2, Nat.ne_of_lt representable, Client.sequencerEntry, Client.joined, Client.epoch]

theorem stepsOf_replays (known : history.length < epoch + kept) (before : epoch <= history.length)
    (representable : history.length <= LAST_EPOCH) :
    Replays schedule history epoch (stepsOf schedule epoch (window schedule history kept)) := by
  induction history generalizing kept with
  | nil =>
    obtain rfl : epoch = 0 := Nat.le_zero.mp before
    rw [stepsOf_eq_nil before]
    exact .nil []
  | cons body history ih =>
    rcases Nat.eq_or_lt_of_le before with rfl | ahead
    · rw [stepsOf_eq_nil .refl]
      exact .nil (body :: history)
    simp only [length_cons] at known ahead representable
    obtain ⟨kept, rfl⟩ : ∃ more, kept = more + 2 := ⟨kept - 2, by omega⟩
    have reached : epoch <= history.length := Nat.le_of_lt_succ ahead
    rw [stepsOf_window_cons, if_pos reached]
    exact (ih (by omega) reached (by omega)).snoc reached (by omega)

/-- The tokens a member holds are those of the last epochs, its own among them. -/
structure Client.Keeps (schedule : Schedule) (client : Client) (kept : Nat) : Prop where
  tokens : client.tokens = window schedule client.history kept
  positive : 0 < kept
  within : kept <= client.history.length + 1

theorem Client.Keeps.merge {client : Client} (keeps : client.Keeps schedule kept) (body : Nat) :
    (client.merge schedule ⟨client.history, body⟩).Keeps schedule (min (kept + 1) TOKENS_KEPT) := by
  have below : ∀ token ∈ client.tokens, token.epoch < client.epoch + 1 := by
    intro token mem
    rw [keeps.tokens] at mem
    exact Nat.lt_succ_of_le (epoch_of_mem_window mem).1
  have pushed : client.tokens.filter (fun kept => kept.epoch < client.epoch + 1) ++
      [⟨client.epoch + 1, schedule.token (body :: client.history)⟩] =
      window schedule (body :: client.history) (kept + 1) := by
    rw [filter_eq_self.mpr (by simpa using below), window_cons, keeps.tokens]
    rfl
  have length : ((body :: client.history).tails.take (kept + 1)).length = kept + 1 := by
    simpa using keeps.within
  refine ⟨?_, by simp [TOKENS_KEPT], ?_⟩
  · simp only [Client.merge, pushToken, pushed]
    rw [window, drop_reverse, ← map_take, take_take, window]
    simp only [length_reverse, length_map, length]
    congr 3
    omega
  have within := keeps.within
  simp only [Client.merge, length_cons]
  omega

theorem Client.Keeps.follow (history : List Nat) (standing : Standing) (bodies : List Nat) :
    ∃ kept, ((Client.joined schedule history standing).follow schedule bodies).Keeps schedule kept ∧
      (bodies = [] ∧ kept = 1 ∨ bodies ≠ [] ∧ 2 <= kept) ∧
      ((Client.joined schedule history standing).follow schedule bodies).history.length =
        history.length + bodies.length := by
  induction bodies using reverseRecOn with
  | nil =>
    refine ⟨1, ⟨?_, Nat.one_pos, Nat.le_add_left _ _⟩, .inl ⟨rfl, rfl⟩, rfl⟩
    cases history <;> simp [Client.follow, Client.joined, window]
  | append_singleton bodies body ih =>
    obtain ⟨kept, keeps, -, length⟩ := ih
    have step : (Client.joined schedule history standing).follow schedule (bodies ++ [body]) =
        Client.merge schedule ((Client.joined schedule history standing).follow schedule bodies)
          ⟨((Client.joined schedule history standing).follow schedule bodies).history, body⟩ := by
      simp [Client.follow]
    rw [step]
    have positive := keeps.positive
    refine ⟨_, keeps.merge body, .inr ⟨by simp, ?_⟩, ?_⟩
    · simp [TOKENS_KEPT]
      omega
    · simp [Client.merge, length, Nat.add_assoc]

/-- Catching up works from every epoch but one older than every token kept, unless there
is but one. -/
theorem catches_up_iff (schedule : Schedule) (history : List Nat) (standing : Standing)
    (bodies : List Nat) (epoch : Nat)
    (representable : history.length + bodies.length ≤ LAST_EPOCH) :
    ((Client.joined schedule history standing).follow schedule bodies).CatchesUp schedule epoch ↔
      ((∀ kept ∈ ((Client.joined schedule history standing).follow schedule bodies).tokens,
        epoch < kept.epoch) → bodies = []) := by
  obtain ⟨kept, keeps, many, length⟩ := @Client.Keeps.follow schedule history standing bodies
  generalize (Client.joined schedule history standing).follow schedule bodies = client at *
  have steps : client.catchUp schedule epoch =
      stepsOf schedule epoch (window schedule client.history kept) := by
    rw [← keeps.tokens]
    rfl
  constructor
  · intro catches older
    have none := catches.nothing (.inl older)
    have current : epoch < client.history.length := by
      refine older ⟨_, schedule.token client.history⟩ ?_
      obtain ⟨older, ends⟩ := @window_succ schedule client.history (kept - 1)
      rw [Nat.sub_add_cancel keeps.positive] at ends
      simp [keeps.tokens, ends]
    rcases many with ⟨empty, -⟩ | ⟨-, many⟩
    · exact empty
    obtain ⟨kept, rfl⟩ := Nat.exists_eq_add_of_le' many
    cases isHistory : client.history with
    | nil =>
      rw [isHistory] at current
      cases current
    | cons _ history =>
      rw [isHistory, length_cons] at current
      rw [steps, isHistory, stepsOf_window_cons, if_pos (by omega)] at none
      simp at none
  intro single
  refine ⟨fun ⟨token, member, same⟩ before => ?_, fun outside => ?_⟩
  · rw [keeps.tokens] at member
    rw [steps]
    exact stepsOf_replays (same ▸ (epoch_of_mem_window member).2) before.le (length ▸ representable)
  rw [steps]
  rcases outside with older | late
  · have only : kept = 1 := by
      rcases many with ⟨-, only⟩ | ⟨some, -⟩
      · exact only
      · exact absurd (single older) some
    rw [only]
    cases client.history <;> simp [stepsOf, window, Client.catchUp]
  · exact stepsOf_eq_nil late

theorem two_steps_behind : ((Client.joined Pair.schedule [] .active).follow Pair.schedule
      [5, 6, 7]).CatchesUp Pair.schedule 1 :=
  (catches_up_iff Pair.schedule [] .active [5, 6, 7] 1 (by decide)).mpr (by decide +kernel)

/-- After 65 commits the tokens of the first two epochs are gone.  The steps from the
first epoch are then those from the third on, and the relay, which is at the first,
takes none of them. -/
theorem steps_from_evicted_epoch :
    let client := (Client.joined Pair.schedule [] .active).follow Pair.schedule (replicate 65 5)
    (∀ kept ∈ client.tokens, 0 < kept.epoch) ∧
    (client.catchUp Pair.schedule 0).map Staged.epoch = range' 2 63 ∧
    ∀ staged ∈ client.catchUp Pair.schedule 0,
      accept Pair.schedule id ⟨0, Pair.schedule.hash (Pair.schedule.token []), 0, 0, none⟩ staged =
        none := by
  decide +kernel

end Silver.System.Sequencing
