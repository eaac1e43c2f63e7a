import Silver.System.SplitView

/-!
# What a contact is accused on

A contact's head between two checkpoints is judged by the entries between them, which
arrive in pages of the relay's choosing.  The contact is accused only on a chain from
the one checkpoint to the other that passes the head's index with another hash.
-/

namespace Silver.System

open Foundation Protocol Client LogHead LogStore Sha256 Tail

variable [DecidableEq Hash] {sha256 : Sha256 Hash} {signatures : Signatures}
  {log : LogStore Hash} {start check finish cursor : LogHead Hash} {peer : UserId}
  {tail : Tail Hash}

abbrev LogPage (Hash : Type) : Type :=
  List (LogEntry Hash) × LogHead Hash × Nat

def Disputes (sha256 : Sha256 Hash) (start check : LogHead Hash) (chain : List (LogEntry Hash)) :
    Prop :=
  ∃ passed middle, passed <+: chain ∧ run (LogHead.extend sha256) start passed = some middle ∧
    middle.index = check.index ∧ middle.hash ≠ check.hash

theorem Disputes.mono (disputes : Disputes sha256 start check chain)
    (within : chain <+: longer) : Disputes sha256 start check longer := by
  obtain ⟨passed, middle, before, rest⟩ := disputes
  exact ⟨passed, middle, before.trans within, rest⟩

def acceptsPage (sha256 : Sha256 Hash) (tail : Tail Hash) (page : LogPage Hash) : Bool :=
  match tail.mode with
  | some (.verify cursor check finish _ matched) =>
    (scan sha256 check finish cursor matched page.1).1 = .incomplete && page.1 ≠ []
  | _ => false

def acceptPage (sha256 : Sha256 Hash) (signatures : Signatures) (tail : Tail Hash)
    (page : LogPage Hash) : Option (Tail Hash) :=
  if acceptsPage sha256 tail page then
    some (tail.onEntries sha256 signatures page.1 page.2.1 page.2.2).1
  else none

/-- A segment under verification: what was fetched chains from the checkpoint below and
ends short of the one above. -/
structure Verifying (sha256 : Sha256 Hash) (log : LogStore Hash) (start check finish : LogHead Hash)
    (peer : UserId) (fetched : List (LogEntry Hash)) (tail : Tail Hash) (cursor : LogHead Hash)
    (matched : Option Bool) : Prop where
  log : tail.log = some log
  mode : tail.mode = some (.verify cursor check finish peer matched)
  chain : run (LogHead.extend sha256) start fetched = some cursor
  short : cursor.index < finish.index
  compared : matched = some false → Disputes sha256 start check fetched

theorem scan_spec
    (entries : List (LogEntry Hash)) (chain : run (extend sha256) start fetched = some cursor)
    (short : cursor.index < finish.index)
    (compared : matched = some false → Disputes sha256 start check fetched) :
    let result := scan sha256 check finish cursor matched entries
    (result.1 = .incomplete → run (extend sha256) start (fetched ++ entries) = some result.2.1 ∧
        result.2.1.index < finish.index ∧
        (result.2.2 = some false → Disputes sha256 start check (fetched ++ entries))) ∧
    (result.1 = .genuine → ∃ taken, taken <+: fetched ++ entries ∧
      run (extend sha256) start taken = some finish ∧
      (result.2.2 = some false → Disputes sha256 start check taken)) := by
  induction entries generalizing fetched cursor matched with
  | nil =>
    rw [List.append_nil]
    exact ⟨fun _ => ⟨chain, short, compared⟩, nofun⟩
  | cons entry rest ih =>
    unfold scan
    by_cases follows : entry.follows cursor
    · have extended : cursor.extend sha256 entry = some (entry.head sha256) :=
        extend_eq_some.mpr ⟨follows, rfl⟩
      have longer : run (extend sha256) start (fetched ++ [entry]) = some (entry.head sha256) := by
        rw [run_snoc, chain]
        exact extended
      have whole : fetched ++ entry :: rest = fetched ++ [entry] ++ rest := by simp
      have index := (index_of_extend extended).2
      simp only [follows, Bool.not_true, Bool.false_eq_true, if_false]
      rw [whole]
      have comparedHere : (if (entry.head sha256).index = check.index then
            some (decide ((entry.head sha256).hash = check.hash)) else matched) = some false →
          Disputes sha256 start check (fetched ++ [entry]) := by
        intro differs
        split at differs
        next here => exact ⟨_, _, List.prefix_refl _, longer, here, by simpa using differs⟩
        next => exact (compared differs).mono (List.prefix_append _ _)
      by_cases ends : (entry.head sha256).index = finish.index
      · by_cases same : (entry.head sha256).hash = finish.hash
        · have isFinish : entry.head sha256 = finish := congrArg₂ LogHead.mk ends same
          simp only [ends, same, if_true, reduceCtorEq, false_implies, true_and]
          refine fun _ => ⟨_, List.prefix_append _ _, isFinish ▸ longer, fun differs => ?_⟩
          exact comparedHere (by simpa only [ends, same] using differs)
        · simp [ends, same]
      simp only [ends, if_false]
      exact ih longer (by omega) comparedHere
    · simp [follows]

theorem checkHead_log (store : LogStore Hash) (peer : UserId) (head : LogHead Hash) :
    (tail.checkHead sha256 store peer head).1.log = tail.log := by
  unfold checkHead
  split <;> rfl

theorem resolveWaiting_log (store : LogStore Hash) (waiting : List (Deferred Hash)) :
    (resolveWaiting sha256 signatures store tail waiting).1.log = tail.log := by
  induction waiting generalizing tail with
  | nil => rfl
  | cons _ _ ih =>
    unfold resolveWaiting
    split
    · rfl
    split
    · split
      · split
        · rfl
        · exact ih
      · exact ih
    · exact ih.trans (checkHead_log _ _ _)

namespace Verifying

variable (verifying : Verifying sha256 log start check finish peer fetched tail cursor matched)
  (page : LogPage Hash)
include verifying

theorem take {next : Tail Hash} (taken : acceptPage sha256 signatures tail page = some next) :
    ∃ further compared, cursor.index < further.index ∧
      Verifying sha256 log start check finish peer (fetched ++ page.1) next further compared ∧
      (tail.onEntries sha256 signatures page.1 page.2.1 page.2.2).2 = Step.logSince further.index := by
  obtain ⟨continues, -⟩ := scan_spec page.1 verifying.chain verifying.short verifying.compared
  rcases result : scan sha256 check finish cursor matched page.1 with ⟨_, further, compared⟩
  simp only [acceptPage, acceptsPage, verifying.mode, result, Option.ite_none_right_eq_some,
    Option.some.injEq, Bool.and_eq_true, decide_eq_true_eq] at taken
  obtain ⟨⟨rfl, nonempty⟩, rfl⟩ := taken
  rw [result] at continues
  obtain ⟨chain, short, disputes⟩ := continues rfl
  have moved : run (extend sha256) cursor page.1 = some further := by
    rwa [run_append, verifying.chain] at chain
  have index := index_of_run_extend moved
  have some : 0 < page.1.length := List.length_pos_iff.mpr nonempty
  simp only [onEntries, verifying.log, verifying.mode, onVerify, result, nonempty, if_false]
  exact ⟨further, compared, by omega, ⟨rfl, rfl, chain, short, disputes⟩, rfl⟩

theorem conclude (refused : acceptPage sha256 signatures tail page = none) :
    ∃ verdict, (tail.onEntries sha256 signatures page.1 page.2.1 page.2.2).2.events =
        verdict ++ ({ tail with mode := none }.resolveDeferred sha256 signatures log).2.events ∧
      ((verdict = [.transparency (.fork (some peer) check.index)] ∧
          ∃ taken, taken <+: fetched ++ page.1 ∧ run (extend sha256) start taken = some finish ∧
            Disputes sha256 start check taken) ∨
        (verdict = [] ∧ ∃ taken, taken <+: fetched ++ page.1 ∧
            run (extend sha256) start taken = some finish) ∨
        (∃ position, verdict = [.transparency (.fork none position)]) ∨
        (verdict = [.transparency (.withheld (some peer) finish.index)] ∧ page.1 = [])) := by
  obtain ⟨-, joins⟩ := scan_spec page.1 verifying.chain verifying.short verifying.compared
  rcases result : scan sha256 check finish cursor matched page.1 with ⟨segment, _, compared⟩
  rw [result] at joins
  simp only [onEntries, verifying.log, verifying.mode, onVerify, result]
  cases segment with
  | genuine =>
    obtain ⟨taken, within, joined, disputes⟩ := joins rfl
    refine ⟨_, rfl, ?_⟩
    split
    next differs => exact .inl ⟨rfl, taken, within, joined, disputes differs⟩
    next => exact .inr (.inl ⟨rfl, taken, within, joined⟩)
  | doctored position => exact ⟨_, rfl, .inr (.inr (.inl ⟨position, rfl⟩))⟩
  | incomplete =>
    have empty : page.1 = [] := by
      simpa [acceptPage, acceptsPage, verifying.mode, result] using refused
    simp only [empty, if_true]
    exact ⟨_, rfl, .inr (.inr (.inr ⟨rfl, trivial⟩))⟩

theorem keeps_log :
    (tail.onEntries sha256 signatures page.1 page.2.1 page.2.2).1.log = some log := by
  simp only [onEntries, verifying.log, verifying.mode, onVerify]
  split
  · exact resolveWaiting_log _ _
  · exact resolveWaiting_log _ _
  split
  · exact resolveWaiting_log _ _
  · rfl

end Verifying

theorem brackets_of_needEntries
    {history : List (LogEntry Hash)} (replayed : Replayed sha256 log history)
    (asks : log.checkPeerHead sha256 check = .needEntries start finish) :
    start.index < check.index ∧ check.index < finish.index := by
  have mirrors := replayed.mirrors
  have below : check.index ≤ log.head.index := by
    by_contra ahead
    rw [checkPeerHead, if_pos (by omega)] at asks
    cases asks
  have unheld : ¬IsHeld history.length check.index := by
    intro held
    rw [mirrors.checkPeerHead_of_held below held] at asks
    split at asks <;> cases asks
  obtain ⟨_, _, same, before, after, -⟩ := mirrors.checkPeerHead_of_unheld below unheld
  cases asks.symm.trans same
  exact ⟨before, after⟩

/-- Through every sequence of pages, truthful or not, a verification leaves the log as it
is, every page taken brings the cursor further, so that no more is asked for than the
segment is long, and the page that ends it raises a fork in the contact's name only if
the entries join the two checkpoints and pass the disputed index with another hash;
pages that do not join them are blamed on the relay.  What else that page raises is
about what waited meanwhile. -/
theorem fork_accusations_sound
    {history : List (LogEntry Hash)} (replayed : Replayed sha256 log history)
    (asks : log.checkPeerHead sha256 check = .needEntries start finish)
    (holds : tail.log = some log) (mode : tail.mode = some (.verify start check finish peer none))
    {pages : List (LogPage Hash)} {before : Tail Hash}
    (taken : run (acceptPage sha256 signatures) tail pages = some before) (page : LogPage Hash) :
    pages.length + 1 ≤ finish.index - start.index ∧
    (before.onEntries sha256 signatures page.1 page.2.1 page.2.2).1.log = some log ∧
    (∀ next, acceptPage sha256 signatures before page = some next →
      ∃ cursor further matched compared, cursor.index < further.index ∧
        before.mode = some (.verify cursor check finish peer matched) ∧
        next.mode = some (.verify further check finish peer compared) ∧
        (before.onEntries sha256 signatures page.1 page.2.1 page.2.2).2 =
          Step.logSince further.index) ∧
    (acceptPage sha256 signatures before page = none →
      ∃ verdict, (before.onEntries sha256 signatures page.1 page.2.1 page.2.2).2.events =
          verdict ++ ({ before with mode := none }.resolveDeferred sha256 signatures log).2.events ∧
        ((verdict = [.transparency (.fork (some peer) check.index)] ∧
            ∃ chain, chain <+: pages.flatMap Prod.fst ++ page.1 ∧
              run (extend sha256) start chain = some finish ∧
              Disputes sha256 start check chain) ∨
          (verdict = [] ∧ ∃ chain, chain <+: pages.flatMap Prod.fst ++ page.1 ∧
              run (extend sha256) start chain = some finish) ∨
          (∃ position, verdict = [.transparency (.fork none position)]) ∨
          (verdict = [.transparency (.withheld (some peer) finish.index)] ∧ page.1 = []))) := by
  have brackets := brackets_of_needEntries replayed asks
  let relates : List (LogPage Hash) → Tail Hash → Prop := fun pages tail =>
    ∃ cursor matched, start.index + pages.length ≤ cursor.index ∧
      Verifying sha256 log start check finish peer (pages.flatMap Prod.fst) tail cursor matched
  have begun : relates [] tail := ⟨start, none, .refl, holds, mode, rfl, by omega, nofun⟩
  have extend : ∀ pages page tail next, relates pages tail →
      acceptPage sha256 signatures tail page = some next → relates (pages ++ [page]) next := by
    rintro pages page tail next ⟨cursor, matched, far, verifying⟩ accepted
    obtain ⟨further, compared, moved, goesOn, -⟩ := verifying.take page accepted
    refine ⟨further, compared, ?_, ?_⟩
    · rw [List.length_append, List.length_singleton]
      omega
    · rwa [List.flatMap_append, List.flatMap_singleton]
  obtain ⟨cursor, matched, far, verifying⟩ := run_relates begun extend taken
  refine ⟨?_, verifying.keeps_log page, ?_, verifying.conclude page⟩
  · have short := verifying.short
    omega
  intro next accepted
  obtain ⟨further, compared, moved, goesOn, said⟩ := verifying.take page accepted
  exact ⟨cursor, further, matched, compared, moved, verifying.mode, goesOn.mode, said⟩

/-- A head at the first entry of a log that has outgrown the checkpoints is fetched for,
and a page with nothing in it leaves the log as it is. -/
theorem early_head_verified : ∃ head start finish,
      let log := ofLog plain (steadyLog plain 4098) head
      let tail : Tail (List UInt8) :=
        { log := some log
          mode := some (.verify start ⟨1, []⟩ finish (Bytes.fill 32 1) none)
          deferred := []
          lastSynced := none }
      log.checkPeerHead plain ⟨1, []⟩ = .needEntries start finish ∧ 1 ≤ finish.index - start.index ∧
        (tail.onEntries plain ⟨fun _ _ _ _ => true⟩ [] start 0).1.log = some log := by
  obtain ⟨head, chains⟩ := steadyLog_chains plain 4098
  have replayed := Replayed.ofLog chains
  have below : 1 ≤ (ofLog plain (steadyLog plain 4098) head).head.index := by
    rw [replayed.mirrors.chains.index_eq, length_steadyLog]
    decide
  let check : LogHead (List UInt8) := ⟨1, []⟩
  have unheld : ¬IsHeld (steadyLog plain 4098).length check.index := by
    rw [length_steadyLog]
    decide
  obtain ⟨start, finish, asks, -⟩ := replayed.mirrors.checkPeerHead_of_unheld below unheld
  let tail : Tail (List UInt8) :=
    { log := some (ofLog plain (steadyLog plain 4098) head)
      mode := some (.verify start check finish (Bytes.fill 32 1) none)
      deferred := []
      lastSynced := none }
  have nothing : run (acceptPage plain ⟨fun _ _ _ _ => true⟩) tail [] = some tail := rfl
  have sound := fork_accusations_sound replayed asks rfl rfl nothing ([], start, 0)
  exact ⟨head, start, finish, asks, sound.1, sound.2.1⟩

end Silver.System
