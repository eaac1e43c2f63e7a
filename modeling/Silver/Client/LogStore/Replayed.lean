import Silver.Client.LogStore.Defs

/-!
# What a replayed store holds

A store is filled page by page, and what it holds is a function of the log it has
replayed: the head is the log's and commits to it, the checkpoints are the heads the
thinning keeps, and each subject's record names its last entries.
-/

namespace Silver.Client

open Foundation Protocol LogEntry List LogHead
open LogStore (kept noteCheckpoint checkPage apply)

section Specification

variable [DecidableEq Hash] (sha256 : Sha256 Hash)

def latestOf (subject : Hash) (log : List (LogEntry Hash)) : Option (Latest Hash) :=
  (lastAbout subject log).map fun entry =>
    { last := entry.position
      kind := some entry.kind
      bundle := lastOfKind subject .bundle log
      revocation := lastOfKind subject .revocation log
      succession := lastOfKind subject .succession log }

def checkpointsOf (log : List (LogEntry Hash)) : List (LogHead Hash) :=
  (log.map (LogEntry.head sha256)).filter (kept log.length)

/-- A store that holds what a log says. -/
structure Mirrors (store : LogStore Hash) (log : List (LogEntry Hash)) : Prop where
  chains : ChainsTo sha256 log store.head
  latest : ∀ subject, store.latest.get subject = latestOf subject log
  checkpoints : store.checkpoints = checkpointsOf sha256 log

/-- A store that has replayed a log: it started empty, then pages were applied
to it and its head was confirmed, in any order.  Pages that were refused left it
as it was. -/
inductive Replayed : LogStore Hash → List (LogEntry Hash) → Prop
  | empty (breaks : List (Break Hash)) : Replayed (LogStore.empty sha256 breaks) []
  | apply (store next : LogStore Hash) (log entries : List (LogEntry Hash)) (nowMs : Nat) :
      Replayed store log →
      store.apply sha256 entries nowMs = .ok next →
      Replayed next (log ++ entries)
  | confirm (store : LogStore Hash) (log : List (LogEntry Hash)) (nowMs : Nat) :
      Replayed store log →
      Replayed (store.confirm nowMs) log

end Specification

section Last

variable [DecidableEq Hash]
  {subject : Hash}

theorem latestOf_snoc (sha256 : Sha256 Hash) : latestOf subject (log ++ [entry]) =
      if entry.subject = subject then
        some (((latestOf subject log).getD (Latest.default sha256)).note entry)
      else latestOf subject log := by
  by_cases same : entry.subject = subject
  · -- A subject that has not appeared starts from the default record.
    cases before : lastAbout subject log with
    | none =>
      simp only [latestOf, lastAbout_snoc, lastOfKind_snoc, same, true_and, before,
        lastOfKind_eq_none_of_absent before, Latest.note, if_true, Option.map_some,
        Option.map_none, Option.getD_none]
      cases entry.kind <;> rfl
    | some =>
      simp only [latestOf, lastAbout_snoc, lastOfKind_snoc, same, true_and, before,
        Latest.note, if_true, Option.map_some, Option.getD_some]
      cases entry.kind <;> rfl
  · simp [latestOf, lastAbout_snoc, lastOfKind_snoc, same]

end Last

theorem checkpointsOf_snoc {log : List (LogEntry Hash)} {entry : LogEntry Hash}
    (counted : entry.index = log.length + 1) :
    checkpointsOf sha256 (log ++ [entry]) =
      noteCheckpoint (checkpointsOf sha256 log) (entry.head sha256) := by
  have grows : ∀ checkpoint : LogHead Hash, kept (log.length + 1) checkpoint = true →
        kept log.length checkpoint = true := by
    intro checkpoint isKept
    simp only [kept, Bool.or_eq_true, decide_eq_true_eq] at isKept ⊢
    omega
  have twice : ((log.map (head sha256)).filter (kept log.length)).filter (kept (log.length + 1)) =
      (log.map (head sha256)).filter (kept (log.length + 1)) := by
    rw [filter_filter]
    apply filter_congr
    intro checkpoint _
    cases isKept : kept (log.length + 1) checkpoint with
    | false => simp
    | true => simp [grows checkpoint isKept]
  have index : (entry.head sha256).index = log.length + 1 := counted
  rw [noteCheckpoint, index, checkpointsOf, checkpointsOf, filter_append, twice,
    length_append, length_singleton, map_append, filter_append]
  rfl

variable [DecidableEq Hash]

theorem checkPage_eq_ok {head : LogHead Hash} : checkPage sha256 head entries = .ok final ↔
      run (extend sha256) head entries = some final := by
  induction entries generalizing head with
  | nil => simp [checkPage]
  | cons entry _ ih =>
    rw [checkPage, run_cons]
    by_cases follows : entry.follows head
    · simp [extend, follows, ih]
    · simp [extend, follows]

theorem apply_eq_ok {store next : LogStore Hash} : store.apply sha256 entries nowMs = .ok next ↔
      ∃ head, run (extend sha256) store.head entries = some head ∧
        next = { entries.foldl (LogStore.noteEntry sha256) store with
          head := head, verifiedAtMs := nowMs } := by
  unfold apply
  cases checked : checkPage sha256 store.head entries with
  | error =>
    have refused : ∀ head, run (extend sha256) store.head entries ≠ some head := by
      intro head ended
      rw [checkPage_eq_ok.mpr ended] at checked
      cases checked
    simp [refused]
  | ok head =>
    have ended := checkPage_eq_ok.mp checked
    simp [ended, eq_comm]

namespace Mirrors

theorem empty (breaks : List (Break Hash)) : Mirrors sha256 (LogStore.empty sha256 breaks) [] where
  chains := chainsTo_nil
  latest := fun _ => rfl
  checkpoints := rfl

theorem noteEntry {store : LogStore Hash} {log : List (LogEntry Hash)}
    {head : LogHead Hash} (mirrors : Mirrors sha256 store log)
    (extended : store.head.extend sha256 entry = some head) :
    Mirrors sha256 { store.noteEntry sha256 entry with head := head } (log ++ [entry]) where
  chains := mirrors.chains.append (by simpa using extended)
  latest := by
    intro subject
    rw [latestOf_snoc sha256, ← mirrors.latest subject]
    simp only [LogStore.noteEntry, Table.get_insert]
    by_cases same : subject = entry.subject
    · subst same
      simp
    · simp [same, Ne.symm same]
  checkpoints := by
    rw [checkpointsOf_snoc, ← mirrors.checkpoints]
    · rfl
    · rw [(index_of_extend extended).1, mirrors.chains.index_eq]

theorem foldl_noteEntry {store : LogStore Hash} {log : List (LogEntry Hash)} {head : LogHead Hash}
    (mirrors : Mirrors sha256 store log)
    (ended : run (extend sha256) store.head entries = some head) :
    Mirrors sha256 { entries.foldl (LogStore.noteEntry sha256) store with head := head }
      (log ++ entries) := by
  induction entries generalizing store log with
  | nil =>
    obtain rfl : store.head = head := by simpa using ended
    simpa using mirrors
  | cons entry rest ih =>
    rw [run_cons] at ended
    obtain ⟨_, extended, continued⟩ := Option.bind_eq_some_iff.mp ended
    have stepped := ih (mirrors.noteEntry extended) continued
    -- The head a page is folded from plays no part in what it notes.
    have headless : ∀ (entries : List (LogEntry Hash)) (store : LogStore Hash)
        (first : LogHead Hash),
        { entries.foldl (LogStore.noteEntry sha256) { store with head := first } with
            head := head } =
          { entries.foldl (LogStore.noteEntry sha256) store with head := head } := by
      intro entries
      induction entries with
      | nil => intros; rfl
      | cons entry rest rest_headless =>
        intro store first
        exact rest_headless (store.noteEntry sha256 entry) first
    rw [headless] at stepped
    simpa using stepped

theorem apply {store next : LogStore Hash} {log : List (LogEntry Hash)}
    (mirrors : Mirrors sha256 store log) (applied : store.apply sha256 entries nowMs = .ok next) :
    Mirrors sha256 next (log ++ entries) := by
  obtain ⟨_, ended, rfl⟩ := apply_eq_ok.mp applied
  have noted := mirrors.foldl_noteEntry ended
  exact { noted with }

end Mirrors

theorem Replayed.mirrors
    {store : LogStore Hash} {log : List (LogEntry Hash)} (replayed : Replayed sha256 store log) :
    Mirrors sha256 store log := by
  induction replayed with
  | empty breaks => exact Mirrors.empty breaks
  | apply store _ log _ nowMs _ applied ih => exact ih.apply applied
  | confirm store log nowMs _ ih => exact { ih with }

def LogStore.ofLog (sha256 : Sha256 Hash) (log : List (LogEntry Hash)) (head : LogHead Hash) :
    LogStore Hash :=
  { log.foldl (LogStore.noteEntry sha256) (LogStore.empty sha256 []) with head := head }

theorem Replayed.ofLog
    {log : List (LogEntry Hash)} {head : LogHead Hash} (chains : ChainsTo sha256 log head) :
    Replayed sha256 (LogStore.ofLog sha256 log head) log := by
  have applied : (LogStore.empty sha256 []).apply sha256 log 0 =
      .ok { log.foldl (LogStore.noteEntry sha256) (LogStore.empty sha256 []) with
        head := head, verifiedAtMs := 0 } :=
    apply_eq_ok.mpr ⟨head, chains, rfl⟩
  have unverified : ∀ (entries : List (LogEntry Hash)) (store : LogStore Hash),
      (entries.foldl (LogStore.noteEntry sha256) store).verifiedAtMs = store.verifiedAtMs := by
    intro entries
    induction entries with
    | nil => intro store; rfl
    | cons _ _ rest_unverified => intro store; exact rest_unverified _
  have replayed := Replayed.apply _ _ _ _ _ (Replayed.empty []) applied
  rw [nil_append] at replayed
  convert replayed using 1
  simp only [LogStore.ofLog]
  rw [unverified]
  rfl

section Commitment

/-- Replay entries from a head, and compare the head they end at with one that is
expected. -/
def replay (sha256 : Sha256 Hash) (head : LogHead Hash) (entries : List (LogEntry Hash))
    (expected : Option (LogHead Hash)) : Except ReplayError (LogHead Hash) :=
  -- The loop is the one that `apply` checks a page with.
  match checkPage sha256 head entries with
  | .error error => .error error
  | .ok reached =>
    if expected.any fun expected =>
        reached.index = expected.index && reached.hash ≠ expected.hash then
      .error (.fork reached.index)
    else .ok reached

theorem chainsTo_of_replay {log : List (LogEntry Hash)} {head : LogHead Hash}
    (accepted : replay sha256 (LogHead.EMPTY sha256) log expected = .ok head) :
    ChainsTo sha256 log head := by
  unfold replay at accepted
  split at accepted
  · cases accepted
  next checked =>
    split at accepted
    · cases accepted
    cases accepted
    exact checkPage_eq_ok.mp checked

def seenOf (sha256 : Sha256 Hash) (user : UserId) (log : List (LogEntry Hash)) :
    List (EntryKind × Hash) :=
  (log.filter fun entry => entry.subject = subject sha256 user).map fun entry =>
    (entry.kind, entry.leaf)

theorem seenOf_eq_of_content {left right : List (LogEntry Hash)}
    (same : left.map content = right.map content) (user : UserId) :
    seenOf sha256 user left = seenOf sha256 user right := by
  have factors : ∀ log : List (LogEntry Hash), seenOf sha256 user log =
      ((log.map content).filter fun content =>
        content.2.2.1 = subject sha256 user).map fun content => (content.2.1, content.2.2.2.1) := by
    intro log
    rw [filter_map, map_map]
    rfl
  rw [factors, factors, same]

/-- The head commits to the whole log: two logs accepted from the start whose heads are
equal at an index agree entry by entry up to it, and two clients that hold the same
head have seen the same leaves for every user. -/
theorem head_commits_to_log
    (collisionFree : Function.Injective sha256.digest) (delimited : sha256.Delimited)
    {left right : List (LogEntry Hash)} {leftHead rightHead : LogHead Hash}
    {leftExpected rightExpected : Option (LogHead Hash)}
    (leftAccepted : replay sha256 (LogHead.EMPTY sha256) left leftExpected = .ok leftHead)
    (rightAccepted : replay sha256 (LogHead.EMPTY sha256) right rightExpected = .ok rightHead) :
    (∀ index, headAt sha256 left index = headAt sha256 right index →
      (left.take index).map LogEntry.content = (right.take index).map LogEntry.content) ∧
    ∀ {ours theirs : LogStore Hash}, Replayed sha256 ours left → Replayed sha256 theirs right →
      ours.head = theirs.head → ∀ user, seenOf sha256 user left = seenOf sha256 user right := by
  constructor
  · intro index same
    apply ChainsTo.content_eq collisionFree delimited ((chainsTo_of_replay leftAccepted).take index)
    rw [same]
    exact (chainsTo_of_replay rightAccepted).take index
  intro ours theirs replayedOurs replayedTheirs same
  apply seenOf_eq_of_content
  apply ChainsTo.content_eq collisionFree delimited replayedOurs.mirrors.chains
  rw [same]
  exact replayedTheirs.mirrors.chains

def spelledSha256 : Sha256 (List UInt8) :=
  { digest := id
    bytes := fun output => output.flatMap (fun byte => [1, byte]) ++ [0]
    zero := [] }

theorem spelledSha256_delimited : spelledSha256.Delimited := by
  intro left right _ _ same
  induction left generalizing right with
  | nil =>
    cases right with
    | nil => exact ⟨rfl, by simpa [spelledSha256] using same⟩
    | cons byte right => simp [spelledSha256] at same
  | cons byte left ih =>
    cases right with
    | nil => simp [spelledSha256] at same
    | cons _ right =>
      simp only [spelledSha256, flatMap_cons, cons_append, nil_append,
        cons.injEq, true_and] at same ih
      obtain ⟨rfl, rest⟩ := ih same.2
      exact ⟨by rw [same.1], rest⟩

/-- The first entry of a log, and the log one entry later. -/
theorem first_entry_committed : let first := after (LogHead.EMPTY spelledSha256) [7] .bundle [8] 0
    let second := after (first.head spelledSha256) [7] .revocation [9] 1
    headAt spelledSha256 [first] 1 = headAt spelledSha256 [first, second] 1 ∧
      ([first].take 1).map content = ([first, second].take 1).map content := by
  intro first second
  have alone : replay spelledSha256 (LogHead.EMPTY spelledSha256) [first] none =
      .ok (first.head spelledSha256) := by
    decide +kernel
  have both : replay spelledSha256 (LogHead.EMPTY spelledSha256) [first, second] none =
      .ok (second.head spelledSha256) := by
    decide +kernel
  exact ⟨rfl, (head_commits_to_log Function.injective_id spelledSha256_delimited alone both).1 1 rfl⟩

end Commitment

end Silver.Client
