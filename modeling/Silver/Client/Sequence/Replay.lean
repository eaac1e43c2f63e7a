import Silver.Client.Sequence.Window

/-!
# Replays of whole streams

`Follows` relates what is remembered to everything received so far.  Inside one epoch the
front end accepts what the window rule says exactly when no number is sent again after the
highest jumped over it; across epochs nothing is accepted twice as long as no stream goes
back to an epoch it has left.
-/

namespace Silver.Client.Sequence

open Foundation SequenceNumber List SequenceCheck

variable {next : SequenceNumber} {stream : Stream} {epoch : Nat}

def SequenceNumber.Numbered (number : SequenceNumber) : Prop :=
  0 < number.seq ∧ number.seq < u64Max

def numbersOf (epoch : Nat) (incoming : List SequenceNumber) : List Nat :=
  (incoming.filter fun number => number.epoch = epoch).map SequenceNumber.seq

theorem mem_numbersOf (epoch number : Nat) (incoming : List SequenceNumber) :
    number ∈ numbersOf epoch incoming ↔ ⟨epoch, number⟩ ∈ incoming := by
  simp only [numbersOf, mem_map, mem_filter, decide_eq_true_eq]
  constructor
  · rintro ⟨⟨_, _⟩, ⟨mem, rfl⟩, rfl⟩
    exact mem
  intro mem
  exact ⟨⟨epoch, number⟩, ⟨mem, rfl⟩, rfl⟩

theorem numbersOf_snoc_same (same : next.epoch = epoch) :
    numbersOf epoch (incoming ++ [next]) = numbersOf epoch incoming ++ [next.seq] := by
  simp [numbersOf, same]

theorem numbersOf_snoc_other (other : next.epoch ≠ epoch) :
    numbersOf epoch (incoming ++ [next]) = numbersOf epoch incoming := by
  simp [numbersOf, other]

theorem numbersOf_eq_nil (absent : ∀ number ∈ incoming, number.epoch ≠ epoch) :
    numbersOf epoch incoming = [] := by
  simpa [numbersOf] using absent

def Follows (incoming : List SequenceNumber) (stream : Stream) : Prop :=
  (∀ number ∈ stream.accepted, number ∈ incoming) ∧ match stream.seen with
    | none => incoming = []
    | some seen =>
      Tracks (numbersOf seen.last.epoch incoming)
        (numbersOf seen.last.epoch stream.accepted) seen.last.seq seen.window

/-- The messages that do not lead a stream astray: one of the current epoch
that the highest has not jumped over, the first of an epoch not received
before, and one at or below where the epoch just left had ended. -/
inductive Orderly (incoming : List SequenceNumber) (seen : Seen) (next : SequenceNumber) : Prop
  | current :
      next.epoch = seen.last.epoch ->
      ¬Jumped (numbersOf next.epoch incoming) next.seq ->
      Orderly incoming seen next
  | opens : (∀ number ∈ incoming, number.epoch ≠ next.epoch) -> Orderly incoming seen next
  | left (previous : SequenceNumber) :
      next.epoch ≠ seen.last.epoch ->
      seen.previous = some previous ->
      previous.epoch = next.epoch ->
      next.seq <= previous.seq ->
      Orderly incoming seen next

section

variable (checked : check stream.seen next = some verdict)
include checked

theorem receive_of_check (numbered : verdict ≠ .legacy) : stream.receive next = some
      (if verdict.accepted then
        { seen := note stream.seen next, accepted := stream.accepted ++ [next] }
      else stream) := by
  rw [Stream.receive, checked]
  cases verdict <;> simp_all [accepted]

theorem accepts_of_check : stream.Accepts next ↔ verdict.accepted = true := by
  simp [Stream.Accepts, checked]

end

section

variable (follows : Follows incoming stream) (remembered : stream.seen = some seen)
  (numbered : ∀ number ∈ incoming, number.Numbered)
include follows remembered numbered

theorem Follows.last_lt : seen.last.seq < u64Max := by
  obtain ⟨_, tracks⟩ := follows
  rw [remembered] at tracks
  have received := (mem_numbersOf _ _ _).mp (tracks.subset _ tracks.last_mem)
  exact (numbered _ received).2

theorem Follows.check_current
    (nextNumbered : next.Numbered) (current : next.epoch = seen.last.epoch) :
    ∃ verdict, check stream.seen next = some verdict ∧ verdict ≠ .legacy ∧
      (verdict.accepted = true ↔
        (next ∉ stream.accepted ∨ Jumped (numbersOf next.epoch incoming) next.seq) ∧
          seen.last.seq <= next.seq + WINDOW) := by
  have room := follows.last_lt remembered numbered
  obtain ⟨_, tracks⟩ := follows
  rw [remembered] at tracks ⊢
  obtain ⟨verdict, computed, notLegacy, acceptedIff⟩ := checkCurrent_accepts next.seq tracks room
  have positive : next.seq ≠ 0 := Nat.pos_iff_ne_zero.mp nextNumbered.1
  refine ⟨verdict, by simp [check, positive, current, computed], notLegacy, ?_⟩
  rw [acceptedIff, mem_numbersOf, ← current]

end

theorem check_other_epoch (nextNumbered : next.Numbered) (other : next.epoch ≠ seen.last.epoch) :
    check (some seen) next = some .replay ∨ check (some seen) next = some .newEpoch := by
  have positive : next.seq ≠ 0 := Nat.pos_iff_ne_zero.mp nextNumbered.1
  have apart : ¬seen.last.epoch = next.epoch := fun same => other same.symm
  cases previous : seen.previous with
  | none => simp [check, positive, apart, previous]
  | some ended =>
    by_cases behind : ended.epoch = next.epoch ∧ next.seq <= ended.seq
    · simp [check, positive, apart, previous, behind]
    · simp [check, positive, apart, previous, behind]

theorem check_left_epoch (nextNumbered : next.Numbered)
    (other : next.epoch ≠ seen.last.epoch) (ended : seen.previous = some previous)
    (same : previous.epoch = next.epoch) (behind : next.seq <= previous.seq) :
    check (some seen) next = some .replay := by
  have positive : next.seq ≠ 0 := Nat.pos_iff_ne_zero.mp nextNumbered.1
  have apart : ¬seen.last.epoch = next.epoch := fun equal => other equal.symm
  simp [check, positive, apart, ended, same, behind]

theorem Follows.drop_other
    (follows : Follows incoming stream) (remembered : stream.seen = some seen)
    (other : next.epoch ≠ seen.last.epoch) :
    Follows (incoming ++ [next]) stream := by
  obtain ⟨received, tracks⟩ := follows
  rw [remembered] at tracks
  refine ⟨fun number mem => mem_append_left _ (received number mem), ?_⟩
  rw [remembered]
  simpa [numbersOf_snoc_other other] using tracks

theorem Follows.open_epoch {accepted : List SequenceNumber}
    (received : ∀ number ∈ accepted, number ∈ incoming)
    (absent : ∀ number ∈ incoming, number.epoch ≠ next.epoch) :
    Follows (incoming ++ [next])
      { seen := some { last := next, window := 0#64, previous := previous }
        accepted := accepted ++ [next] } := by
  refine ⟨?_, ?_⟩
  · intro number mem
    simp only [mem_append, mem_singleton] at mem ⊢
    exact mem.imp_left (received number)
  have absentAccepted : ∀ number ∈ accepted, number.epoch ≠ next.epoch :=
    fun number mem => absent number (received number mem)
  simp only [numbersOf_snoc_same rfl, numbersOf_eq_nil absent,
    numbersOf_eq_nil absentAccepted, nil_append]
  exact Tracks.singleton next.seq

theorem Follows.receive_current
    (follows : Follows incoming stream) (remembered : stream.seen = some seen)
    (numbered : ∀ number ∈ incoming, number.Numbered) (nextNumbered : next.Numbered)
    (current : next.epoch = seen.last.epoch)
    (steady : ¬Jumped (numbersOf next.epoch incoming) next.seq) :
    ∃ after, stream.receive next = some after ∧ Follows (incoming ++ [next]) after := by
  obtain ⟨verdict, checked, notLegacy, acceptedIff⟩ :=
    follows.check_current remembered numbered nextNumbered current
  refine ⟨_, receive_of_check checked notLegacy, ?_⟩
  obtain ⟨received, tracks⟩ := follows
  rw [remembered] at tracks
  have positive : next.seq ≠ 0 := Nat.pos_iff_ne_zero.mp nextNumbered.1
  by_cases accepted : verdict.accepted = true
  · obtain ⟨fresh, near⟩ := acceptedIff.mp accepted
    have freshNumber : next.seq ∉ numbersOf seen.last.epoch stream.accepted := by
      rw [mem_numbersOf, ← current]
      exact fresh.resolve_right steady
    have noted := noteCurrent_tracks tracks (current ▸ steady) freshNumber near
    have epochKept : (noteCurrent seen next).last.epoch = seen.last.epoch := by
      unfold noteCurrent
      split
      · exact current
      dsimp only
      split <;> rfl
    refine ⟨?_, ?_⟩
    · intro number mem
      simp only [accepted, if_true, mem_append, mem_singleton] at mem ⊢
      exact mem.imp_left (received number)
    simp only [accepted, if_true, remembered, note, positive, if_false, current, ne_eq,
      not_true_eq_false]
    rw [epochKept, numbersOf_snoc_same current, numbersOf_snoc_same current]
    exact noted
  have bounded : next.seq <= seen.last.seq := by
    by_contra above
    apply accepted
    rw [acceptedIff]
    refine ⟨.inl fun mem => above ?_, by omega⟩
    have inEpoch : next.seq ∈ numbersOf seen.last.epoch stream.accepted := by
      rw [mem_numbersOf, ← current]
      exact mem
    exact tracks.bound _ (tracks.subset _ inEpoch)
  refine ⟨?_, ?_⟩
  · intro number mem
    simp only [accepted] at mem
    exact mem_append_left _ (received number mem)
  simp only [accepted]
  rw [if_neg (by decide), remembered]
  simpa [numbersOf_snoc_same current] using tracks.refuse bounded

section

variable (follows : Follows incoming stream) (numbered : ∀ number ∈ incoming, number.Numbered)
  (nextNumbered : next.Numbered)
  (orderly : ∀ seen, stream.seen = some seen -> Orderly incoming seen next)
include follows numbered nextNumbered orderly

theorem Follows.receive :
    ∃ after, stream.receive next = some after ∧ Follows (incoming ++ [next]) after := by
  have positive : next.seq ≠ 0 := Nat.pos_iff_ne_zero.mp nextNumbered.1
  cases remembered : stream.seen with
  | none =>
    obtain ⟨received, empty⟩ := follows
    rw [remembered] at empty
    subst empty
    have checked : check stream.seen next = some .fresh := by
      simp [check, remembered, positive]
    refine ⟨_, receive_of_check checked (by simp), ?_⟩
    simp only [accepted, if_true, remembered, note, positive, if_false]
    exact Follows.open_epoch received (by simp)
  | some seen =>
    have otherEpoch : next.epoch ≠ seen.last.epoch ->
        (∀ number ∈ incoming, number.epoch ≠ next.epoch) ∨ check stream.seen next = some .replay ->
        ∃ after, stream.receive next = some after ∧ Follows (incoming ++ [next]) after := by
      intro other situation
      have dropped : check stream.seen next = some .replay ->
          ∃ after, stream.receive next = some after ∧ Follows (incoming ++ [next]) after := by
        intro checked
        exact ⟨stream, by simpa [accepted] using
          receive_of_check checked (by simp), follows.drop_other remembered other⟩
      rcases situation with absent | checked
      · rcases check_other_epoch nextNumbered other with checked | checked
        · exact dropped (by rw [remembered]; exact checked)
        rw [← remembered] at checked
        refine ⟨_, receive_of_check checked (by simp), ?_⟩
        have apart : ¬seen.last.epoch = next.epoch := fun same => other same.symm
        simp only [accepted, if_true, remembered, note, positive, if_false,
          ne_eq, apart, not_false_eq_true]
        exact Follows.open_epoch follows.1 absent
      · exact dropped checked
    cases orderly seen remembered with
    | current current steady =>
      exact follows.receive_current remembered numbered nextNumbered current steady
    | opens absent =>
      have lastReceived : (⟨seen.last.epoch, seen.last.seq⟩ : SequenceNumber) ∈ incoming := by
        obtain ⟨_, tracks⟩ := follows
        rw [remembered] at tracks
        exact (mem_numbersOf _ _ _).mp (tracks.subset _ tracks.last_mem)
      exact otherEpoch (fun same => absent _ lastReceived same.symm) (.inl absent)
    | left _ other ended same behind =>
      refine otherEpoch other (.inr ?_)
      rw [remembered]
      exact check_left_epoch nextNumbered other ended same behind

theorem Follows.not_accepts_again (again : next ∈ stream.accepted) : ¬stream.Accepts next := by
  cases remembered : stream.seen with
  | none =>
    obtain ⟨received, empty⟩ := follows
    rw [remembered] at empty
    subst empty
    exact absurd (received next again) not_mem_nil
  | some seen =>
    cases orderly seen remembered with
    | current current steady =>
      obtain ⟨_, checked, _, acceptedIff⟩ :=
        follows.check_current remembered numbered nextNumbered current
      rw [accepts_of_check checked, acceptedIff]
      rintro ⟨fresh | jumped, _⟩
      · exact fresh again
      · exact steady jumped
    | opens absent => exact absurd rfl (absent next (follows.1 next again))
    | left _ other ended same behind =>
      have checked : check stream.seen next = some .replay := by
        rw [remembered]
        exact check_left_epoch nextNumbered other ended same behind
      rw [accepts_of_check checked]
      decide

end

def OrderlyStep (before : List SequenceNumber) (next : SequenceNumber) : Prop :=
  ∀ stream seen, receiveAll before = some stream -> stream.seen = some seen ->
    Orderly before seen next

theorem receiveAll_follows
    (numbered : ∀ number ∈ incoming, number.Numbered) (orderly : EachStep OrderlyStep incoming) :
    ∃ stream, receiveAll incoming = some stream ∧ Follows incoming stream := by
  induction incoming using reverseRecOn with
  | nil => exact ⟨Stream.empty, rfl, by simp [Stream.empty], rfl⟩
  | append_singleton incoming next ih =>
    obtain ⟨orderlyBefore, orderlyNext⟩ := (eachStep_snoc _ _ _).mp orderly
    have numberedBefore : ∀ number ∈ incoming, number.Numbered :=
      fun number mem => numbered number (by simp [mem])
    obtain ⟨stream, reached, follows⟩ := ih numberedBefore orderlyBefore
    obtain ⟨after, received, followsAfter⟩ :=
      follows.receive numberedBefore (numbered next (by simp))
        fun seen remembered => orderlyNext stream seen reached remembered
    refine ⟨after, ?_, followsAfter⟩
    rw [receiveAll] at reached ⊢
    rw [run_snoc, reached]
    exact received

/-! ## Across epochs -/

def NeverTwice (incoming : List SequenceNumber) : Prop :=
  EachStep (fun before next => ∃ stream, receiveAll before = some stream ∧
    (next ∈ stream.accepted -> ¬stream.Accepts next)) incoming

/-- A stream of orderly messages accepts no pair twice, through any number of
epochs. -/
theorem neverTwice_of_orderly
    (incoming : List SequenceNumber) (numbered : ∀ number ∈ incoming, number.Numbered)
    (orderly : EachStep OrderlyStep incoming) :
    NeverTwice incoming := by
  intro before next after split
  subst split
  have numberedBefore : ∀ number ∈ before, number.Numbered :=
    fun number member => numbered number (by simp [member])
  obtain ⟨stream, reached, follows⟩ := receiveAll_follows numberedBefore orderly.of_append
  refine ⟨stream, reached, follows.not_accepts_again numberedBefore
    (numbered next (by simp)) fun seen remembered => ?_⟩
  exact orderly before next after rfl stream seen reached remembered

/-- An epoch with a late message, a fresh installation, and a message of the
old epoch handed back: orderly, so nothing is accepted twice. -/
theorem neverTwice_fresh_installation : NeverTwice [⟨7, 1⟩, ⟨7, 3⟩, ⟨8, 1⟩, ⟨7, 3⟩] := by
  have steady : ∀ numbers, (∀ number ∈ numbers, number < WINDOW) ->
      ∀ low, ¬Jumped numbers low := by
    rintro numbers small low ⟨_, _, rfl, _⟩
    have := small (low + WINDOW) (by simp)
    omega
  refine neverTwice_of_orderly _ (by simp [SequenceNumber.Numbered, u64Max]) ?_
  refine (eachStep_snoc OrderlyStep [⟨7, 1⟩, ⟨7, 3⟩, ⟨8, 1⟩] _).mpr
    ⟨(eachStep_snoc OrderlyStep [⟨7, 1⟩, ⟨7, 3⟩] _).mpr
      ⟨(eachStep_snoc OrderlyStep [⟨7, 1⟩] _).mpr
        ⟨(eachStep_snoc OrderlyStep [] _).mpr ⟨eachStep_nil _, ?_⟩, ?_⟩, ?_⟩, ?_⟩
  · rintro stream seen reached remembered
    cases reached
    simp [Stream.empty] at remembered
  · rintro stream seen reached remembered
    cases reached
    cases remembered
    exact .current rfl (steady _ (by decide) _)
  · rintro stream seen reached remembered
    cases reached
    exact .opens (by decide)
  rintro stream seen reached remembered
  cases reached
  cases remembered
  exact .left ⟨7, 3⟩ (by decide) rfl rfl (by decide)

/-- After two fresh installations the first epoch is forgotten, and its first
message is accepted again. -/
theorem not_neverTwice_after_two_installations :
    (∀ number ∈ ([⟨7, 1⟩, ⟨8, 1⟩, ⟨9, 1⟩, ⟨7, 1⟩] : List SequenceNumber), number.Numbered) ∧
      ¬NeverTwice [⟨7, 1⟩, ⟨8, 1⟩, ⟨9, 1⟩, ⟨7, 1⟩] := by
  refine ⟨by simp [SequenceNumber.Numbered, u64Max], fun never => ?_⟩
  obtain ⟨_, reached, refused⟩ := never [⟨7, 1⟩, ⟨8, 1⟩, ⟨9, 1⟩] ⟨7, 1⟩ [] rfl
  cases reached
  exact refused (by decide) (by decide)

/-! ## Inside one epoch -/

def inEpoch (epoch : Nat) (numbers : List Nat) : List SequenceNumber :=
  numbers.map fun number => ⟨epoch, number⟩

@[simp] theorem numbersOf_inEpoch (epoch : Nat) (numbers : List Nat) :
    numbersOf epoch (inEpoch epoch numbers) = numbers := by
  induction numbers with
  | nil => rfl
  | cons _ numbers ih => simpa [numbersOf, inEpoch] using ih

def WindowRule (accepted : List Nat) (number : Nat) : Prop :=
  number ∉ accepted ∧ ∀ highest, accepted.max? = some highest ->
      highest < number ∨ number <= highest ∧ highest - number <= WINDOW

def MeetsWindowRule (epoch : Nat) (numbers : List Nat) : Prop :=
  EachStep (fun before number =>
    ∃ stream, receiveAll (inEpoch epoch before) = some stream ∧ (stream.Accepts ⟨epoch, number⟩ ↔
        WindowRule (numbersOf epoch stream.accepted) number) ∧
      (⟨epoch, number⟩ ∈ stream.accepted -> ¬stream.Accepts ⟨epoch, number⟩)) numbers

def NoJumpReplay (numbers : List Nat) : Prop :=
  EachStep (fun before number => ¬Jumped before number) numbers

theorem orderly_inEpoch (steady : NoJumpReplay numbers)
    (numbered : ∀ number ∈ numbers, (mk epoch number).Numbered) :
    ∃ stream, receiveAll (inEpoch epoch numbers) = some stream ∧
      Follows (inEpoch epoch numbers) stream ∧
      ∀ seen, stream.seen = some seen -> seen.last.epoch = epoch := by
  have epochOf : ∀ before, ∀ stream seen,
      Follows (inEpoch epoch before) stream -> stream.seen = some seen ->
        seen.last.epoch = epoch := by
    rintro before stream seen ⟨_, tracks⟩ remembered
    rw [remembered] at tracks
    have received := (mem_numbersOf _ _ _).mp (tracks.subset _ tracks.last_mem)
    simp only [inEpoch, mem_map, mk.injEq] at received
    obtain ⟨_, _, same, _⟩ := received
    exact same.symm
  have numberedAll : ∀ before, (∀ number ∈ before, (mk epoch number).Numbered) ->
        ∀ number ∈ inEpoch epoch before, number.Numbered := by
    intro before numberedBefore number mem
    simp only [inEpoch, mem_map] at mem
    obtain ⟨value, valueMember, rfl⟩ := mem
    exact numberedBefore value valueMember
  induction numbers using reverseRecOn with
  | nil => exact ⟨Stream.empty, rfl, ⟨by simp [Stream.empty], rfl⟩, by simp [Stream.empty]⟩
  | append_singleton numbers number ih =>
    obtain ⟨steadyBefore, steadyNumber⟩ := (eachStep_snoc _ _ _).mp steady
    have numberedBefore : ∀ value ∈ numbers, (mk epoch value).Numbered :=
      fun value mem => numbered value (by simp [mem])
    obtain ⟨stream, reached, follows, inSame⟩ := ih steadyBefore numberedBefore
    have orderly : ∀ seen, stream.seen = some seen ->
        Orderly (inEpoch epoch numbers) seen ⟨epoch, number⟩ := by
      intro seen remembered
      exact .current (inSame seen remembered).symm (by simpa using steadyNumber)
    obtain ⟨after, received, followsAfter⟩ :=
      follows.receive (numberedAll numbers numberedBefore) (numbered number (by simp)) orderly
    have split : inEpoch epoch (numbers ++ [number]) =
        inEpoch epoch numbers ++ [⟨epoch, number⟩] := by simp [inEpoch]
    rw [split]
    refine ⟨after, ?_, followsAfter, ?_⟩
    · rw [receiveAll] at reached ⊢
      rw [run_snoc, reached]
      exact received
    intro seen remembered
    exact epochOf (numbers ++ [number]) after seen (split ▸ followsAfter) remembered

theorem accepts_inEpoch {before : List Nat} (follows : Follows (inEpoch epoch before) stream)
    (inSame : ∀ seen, stream.seen = some seen -> seen.last.epoch = epoch)
    (numbered : ∀ value ∈ before, (mk epoch value).Numbered)
    (numberNumbered : (mk epoch number).Numbered) :
    stream.Accepts ⟨epoch, number⟩ ↔ WindowRule (numbersOf epoch stream.accepted) number ∨
        (number ∈ numbersOf epoch stream.accepted ∧ Jumped before number) := by
  cases remembered : stream.seen with
  | none =>
    obtain ⟨received, empty⟩ := follows
    rw [remembered] at empty
    have nothing : stream.accepted = [] := by
      rw [eq_nil_iff_forall_not_mem]
      intro value mem
      simpa [empty] using received value mem
    have positive : number ≠ 0 := Nat.pos_iff_ne_zero.mp numberNumbered.1
    have checked : check stream.seen ⟨epoch, number⟩ = some .fresh := by
      simp [check, remembered, positive]
    rw [accepts_of_check checked]
    simp [accepted, WindowRule, nothing, numbersOf]
  | some seen =>
    have same := inSame seen remembered
    have numberedAll : ∀ value ∈ inEpoch epoch before, value.Numbered := by
      intro value mem
      simp only [inEpoch, mem_map] at mem
      obtain ⟨low, lowMember, rfl⟩ := mem
      exact numbered low lowMember
    obtain ⟨_, checked, _, acceptedIff⟩ :=
      follows.check_current remembered numberedAll numberNumbered same.symm
    rw [accepts_of_check checked, acceptedIff, numbersOf_inEpoch]
    obtain ⟨_, tracks⟩ := follows
    rw [remembered] at tracks
    simp only [same, numbersOf_inEpoch] at tracks
    have highest : (numbersOf epoch stream.accepted).max? = some seen.last.seq := by
      rw [max?_eq_some_iff]
      exact ⟨tracks.last_mem, fun value mem => tracks.bound value (tracks.subset value mem)⟩
    have jumpedNear : Jumped before number -> seen.last.seq <= number + WINDOW := by
      rintro ⟨_, _, rfl, _, firstBound, betweenBound⟩
      have lastMember := tracks.subset _ tracks.last_mem
      simp only [mem_append, mem_cons] at lastMember
      rcases lastMember with inFirst | isHigh | inBetween
      · exact (firstBound _ inFirst).trans (by omega)
      · exact isHigh.le
      · exact betweenBound _ inBetween
    simp only [WindowRule, highest, Option.some.injEq, forall_eq', mem_numbersOf]
    constructor
    · rintro ⟨fresh | jumped, near⟩
      · exact .inl ⟨fresh, by omega⟩
      by_cases mem : (⟨epoch, number⟩ : SequenceNumber) ∈ stream.accepted
      · exact .inr ⟨mem, jumped⟩
      · exact .inl ⟨mem, by omega⟩
    rintro (⟨fresh, near⟩ | ⟨_, jumped⟩)
    · exact ⟨.inl fresh, by omega⟩
    · exact ⟨.inr jumped, jumpedNear jumped⟩

theorem run_keeps_accepted
    (ended : run Stream.receive stream incoming = some final) (mem : number ∈ stream.accepted) :
    number ∈ final.accepted := by
  let keeps : Stream -> Prop := fun state => number ∈ state.accepted
  refine @run_keeps _ _ Stream.receive stream keeps mem ?_ incoming final ended
  intro _ state _ memberState received
  rw [Stream.receive] at received
  obtain ⟨verdict, _, rfl⟩ := Option.map_eq_some_iff.mp received
  cases verdict
  case replay => exact memberState
  all_goals exact mem_append_left _ memberState

theorem Jumped.accepted {before : List Nat} (jumped : Jumped before number)
    (steady : NoJumpReplay before)
    (numbered : ∀ value ∈ before, (mk epoch value).Numbered)
    (reached : receiveAll (inEpoch epoch before) = some stream) :
    ⟨epoch, number⟩ ∈ stream.accepted := by
  obtain ⟨first, between, rfl, lowMember, firstBound, _⟩ := jumped
  have numberedFirst : ∀ value ∈ first, (mk epoch value).Numbered :=
    fun value mem => numbered value (by simp [mem])
  obtain ⟨middle, reachedFirst, follows, inSame⟩ := orderly_inEpoch steady.of_append numberedFirst
  have highAccepted : (⟨epoch, number⟩ : SequenceNumber) ∈ middle.accepted := by
    cases remembered : middle.seen with
    | none =>
      have empty := follows.2
      rw [remembered] at empty
      simp only [inEpoch, map_eq_nil_iff] at empty
      subst empty
      exact absurd lowMember not_mem_nil
    | some seen =>
      have tracks := follows.2
      rw [remembered] at tracks
      simp only [inSame seen remembered, numbersOf_inEpoch] at tracks
      have lastBound := firstBound _ (tracks.subset _ tracks.last_mem)
      have lowBound := tracks.bound _ lowMember
      have same : seen.last.seq = number := by omega
      exact (mem_numbersOf _ _ _).mp (same ▸ tracks.last_mem)
  have split : inEpoch epoch (first ++ (number + WINDOW) :: between) =
      inEpoch epoch first ++ inEpoch epoch ((number + WINDOW) :: between) := by
    simp [inEpoch]
  rw [receiveAll, split, run_append] at reached
  obtain ⟨passed, reachedPassed, later⟩ := Option.bind_eq_some_iff.mp reached
  rw [receiveAll] at reachedFirst
  obtain rfl : middle = passed := Option.some.inj (reachedFirst.symm.trans reachedPassed)
  exact run_keeps_accepted later highAccepted

/-- The window rule is met by exactly the lists of numbers in which no number
comes again right after the highest jumped `WINDOW` above it. -/
theorem meetsWindowRule_iff (epoch : Nat) (numbers : List Nat)
    (numbered : ∀ number ∈ numbers, 0 < number ∧ number < u64Max) :
    MeetsWindowRule epoch numbers ↔ NoJumpReplay numbers := by
  constructor
  · intro meets
    -- the first replay after a jump is accepted, which the rule forbids
    induction numbers using reverseRecOn with
    | nil => exact eachStep_nil _
    | append_singleton numbers number ih =>
      have numberedBefore : ∀ value ∈ numbers, 0 < value ∧ value < u64Max :=
        fun value member => numbered value (by simp [member])
      obtain ⟨meetsBefore, stream, reached, rule, never⟩ := (eachStep_snoc _ _ _).mp meets
      have steady := ih numberedBefore meetsBefore
      refine (eachStep_snoc _ _ _).mpr ⟨steady, fun jumped => ?_⟩
      have member := jumped.accepted steady numberedBefore reached
      obtain ⟨same, reachedSame, follows, inSame⟩ := orderly_inEpoch steady numberedBefore
      obtain rfl : stream = same := Option.some.inj (reached.symm.trans reachedSame)
      refine never member ?_
      rw [accepts_inEpoch follows inSame numberedBefore (numbered number (by simp))]
      exact .inr ⟨(mem_numbersOf _ _ _).mpr member, jumped⟩
  intro steady before number after split
  subst split
  have numberedBefore : ∀ value ∈ before, (mk epoch value).Numbered :=
    fun value member => numbered value (by simp [member])
  obtain ⟨stream, reached, follows, inSame⟩ := orderly_inEpoch steady.of_append numberedBefore
  have accepts := accepts_inEpoch follows inSame numberedBefore (numbered number (by simp))
  have notJumped := steady before number after rfl
  simp only [notJumped, and_false, or_false] at accepts
  refine ⟨stream, reached, accepts, fun member => ?_⟩
  rw [accepts]
  exact fun rule => rule.1 ((mem_numbersOf _ _ _).mpr member)

/-- Numbers that overtake each other inside the window meet the rule. -/
theorem meetsWindowRule_overtaking : MeetsWindowRule 7 [1, 4, 3, 4, 2] := by
  refine (meetsWindowRule_iff 7 [1, 4, 3, 4, 2] (by decide)).mpr ?_
  rintro _ number _ split ⟨_, _, rfl, _⟩
  have small : ∀ value ∈ [1, 4, 3, 4, 2], value < WINDOW := by decide
  have := small (number + WINDOW) (by rw [split]; simp)
  omega

/-- The highest jumps from 1 to 65 and 1 comes again: it stands `WINDOW` below
the highest and was accepted before, and it is accepted a second time. -/
theorem not_meetsWindowRule_after_jump : (∀ number ∈ [1, 65, 1], 0 < number ∧ number < u64Max) ∧
      ¬MeetsWindowRule 7 [1, 65, 1] := by
  refine ⟨by decide, fun meets => ?_⟩
  obtain ⟨_, reached, _, refused⟩ := meets [1, 65] 1 [] rfl
  cases reached
  exact refused (by decide) (by decide)

end Silver.Client.Sequence
