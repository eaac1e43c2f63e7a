import Silver.Client.LogStore.Replayed

/-!
# Checking an answer against the replayed log

The checks read a store only through what it holds of a subject, so on a store
that mirrors a log they compare an answer with that log.
-/

namespace Silver.Client

open Foundation Protocol Latest LogEntry LogStore Sha256

variable [DecidableEq Hash]

namespace Mirrors

variable {log : List (LogEntry Hash)}

section

variable (mirrors : Mirrors sha256 store log) (user : UserId)
include mirrors user

theorem latestFor_eq : store.latestFor sha256 user = latestOf (subject sha256 user) log :=
  mirrors.latest _

theorem bind_field (kind : EntryKind) (field : Latest Hash → Option (LogPosition Hash))
    (holds : ∀ latest, latestOf (subject sha256 user) log = some latest →
      field latest = lastOfKind (subject sha256 user) kind log) :
    (store.latestFor sha256 user).bind field = lastOfKind (subject sha256 user) kind log := by
  rw [mirrors.latestFor_eq]
  cases appears : latestOf (subject sha256 user) log with
  | some latest => exact holds latest appears
  | none =>
    have absent : lastAbout (subject sha256 user) log = none := by
      simpa [latestOf] using appears
    rw [lastOfKind_eq_none_of_absent absent]
    rfl

theorem bundle_eq : (store.latestFor sha256 user).bind bundle =
      lastOfKind (subject sha256 user) .bundle log := by
  refine mirrors.bind_field user .bundle bundle ?_
  intro _ appears
  obtain ⟨_, _, rfl⟩ := Option.map_eq_some_iff.mp appears
  rfl

theorem revocation_eq : (store.latestFor sha256 user).bind revocation =
      lastOfKind (subject sha256 user) .revocation log := by
  refine mirrors.bind_field user .revocation revocation ?_
  intro _ appears
  obtain ⟨_, _, rfl⟩ := Option.map_eq_some_iff.mp appears
  rfl

theorem succession_eq : (store.latestFor sha256 user).bind succession =
      lastOfKind (subject sha256 user) .succession log := by
  refine mirrors.bind_field user .succession succession ?_
  intro _ appears
  obtain ⟨_, _, rfl⟩ := Option.map_eq_some_iff.mp appears
  rfl

theorem last_eq : (store.latestFor sha256 user).map last =
      (lastAbout (subject sha256 user) log).map position := by
  rw [mirrors.latestFor_eq, latestOf, Option.map_map]
  rfl

end

theorem latestFor_append {user : UserId}
    (mirrors : Mirrors sha256 store log) (grown : Mirrors sha256 longer (log ++ more))
    (others : ∀ entry ∈ more, entry.subject ≠ subject sha256 user) :
    longer.latestFor sha256 user = store.latestFor sha256 user := by
  rw [mirrors.latestFor_eq, grown.latestFor_eq]
  clear mirrors grown
  induction more using List.reverseRecOn with
  | nil => rw [List.append_nil]
  | append_singleton more entry ih =>
    rw [← List.append_assoc, latestOf_snoc sha256,
      if_neg (others entry (List.mem_append_right _ (List.mem_singleton_self _)))]
    exact ih fun other mem => others other (List.mem_append_left _ mem)

end Mirrors

theorem bind_eq_ok {first : Except Discrepancy Unit} :
    (first >>= second) = .ok () ↔ first = .ok () ∧ second () = .ok () := by
  cases first with
  | error | ok => simp [bind, Except.bind]

theorem checkLookup_eq_ok {store : LogStore Hash} {log : List (LogEntry Hash)}
    (mirrors : Mirrors sha256 store log) (user : UserId) (bundle : Option KeyBundle)
    (revocation : Option Revocation) (succession : Option Succession)
    (claimed : Option (LogPosition Hash)) :
    store.checkLookup sha256 user bundle revocation succession claimed = .ok () ↔
      checkClaim sha256 (store.latestFor sha256 user) claimed = .ok () ∧
      (∀ shown, bundle = some shown →
        checkBundle sha256 (store.latestFor sha256 user) shown = .ok ()) ∧
      checkStatement .withheldRevocation
        (lastOfKind (subject sha256 user) .revocation log)
        (revocation.map (Revocation.transparencyLeaf sha256)) = .ok () ∧
      (lastOfKind (subject sha256 user) .revocation log = none → checkStatement .withheldSuccession
          (lastOfKind (subject sha256 user) .succession log)
          (succession.map (Succession.transparencyLeaf sha256)) = .ok ()) := by
  unfold checkLookup
  simp only [mirrors.revocation_eq, mirrors.succession_eq, bind_eq_ok]
  refine and_congr_right' (and_congr ?_ (and_congr_right' ?_))
  · cases bundle <;> simp
  · cases lastOfKind (subject sha256 user) .revocation log <;> simp [pure, Except.pure]

theorem checkLookup_withheld {store : LogStore Hash} {log : List (LogEntry Hash)}
    (mirrors : Mirrors sha256 store log) {user : UserId} {bundle : Option KeyBundle}
    {position : LogPosition Hash}
    (claimPasses : checkClaim sha256 (store.latestFor sha256 user) claimed = .ok ())
    (bundlePasses : ∀ shown, bundle = some shown →
      checkBundle sha256 (store.latestFor sha256 user) shown = .ok ())
    (logged : lastOfKind (subject sha256 user) .revocation log = some position)
    (succession : Option Succession) :
    store.checkLookup sha256 user bundle none succession claimed =
      .error (.withheldRevocation position.index) := by
  have bundleStep : bundle.elim (.ok ())
      (checkBundle sha256 (store.latestFor sha256 user)) = .ok () := by
    cases bundle with
    | none => rfl
    | some shown => exact bundlePasses shown rfl
  simp only [checkLookup, claimPasses, bundleStep, mirrors.revocation_eq, logged,
    Option.map_none, checkStatement]
  rfl

theorem checkStatement_eq_ok {served : Option Hash} :
    checkStatement withheld logged served = .ok () ↔ served = logged.map LogPosition.leaf := by
  cases logged <;> cases served <;> simp [checkStatement]

def IsIdentityRevocation (sha256 : Sha256 Hash) (user : UserId) (entry : LogEntry Hash) : Prop :=
  entry.kind = .revocation ∧ entry.subject = subject sha256 user ∧ ∃ revocation : Revocation,
      revocation.identity = user ∧ entry.leaf = revocation.transparencyLeaf sha256

theorem lastOfKind_revocation_ne_none {user : UserId} {log later : List (LogEntry Hash)}
    (mem : entry ∈ log) (revokes : IsIdentityRevocation sha256 user entry) :
    lastOfKind (subject sha256 user) .revocation (log ++ later) ≠ none := by
  obtain ⟨ofKind, same, _⟩ := revokes
  rw [Ne, lastOfKind_eq_none]
  intro absent
  exact absent entry (List.mem_append_left later mem) ⟨same, ofKind⟩

/-- Once a revocation of an identity has been replayed, no answer that carries
none is accepted for it, whatever else the answer holds and however the log goes
on. -/
theorem checkLookup_refuses_withheld_revocation
    {store : LogStore Hash} {user : UserId} {log later : List (LogEntry Hash)}
    {entry : LogEntry Hash} (replayed : Replayed sha256 store (log ++ later)) (member : entry ∈ log)
    (revokes : IsIdentityRevocation sha256 user entry)
    (bundle : Option KeyBundle) (succession : Option Succession)
    (claimed : Option (LogPosition Hash)) :
    store.checkLookup sha256 user bundle none succession claimed ≠ .ok () := by
  intro accepted
  have statement :=
    ((checkLookup_eq_ok replayed.mirrors user bundle none succession claimed).mp accepted).2.2.1
  rw [checkStatement_eq_ok, Option.map_none, eq_comm, Option.map_eq_none_iff] at statement
  exact lastOfKind_revocation_ne_none member revokes statement

/-- The refusal at a log whose identity was revoked and then published once
more. -/
theorem checkLookup_refuses_after_revocation : let user : UserId := Bytes.fill 32 7
    let revocation : Revocation := ⟨user, 5, Bytes.fill 64 0⟩
    let first := after (LogHead.EMPTY plain) (subject plain user)
      .revocation (revocation.transparencyLeaf plain) 6
    let second := after (first.head plain) (subject plain user) .bundle [1] 7
    (ofLog plain [first, second] (second.head plain)).checkLookup
      plain user none none none none ≠ .ok () := by
  intro user revocation first second
  have chains : ChainsTo plain [first, second] (second.head plain) := by
    simp [ChainsTo, first, second]
  have replayed : Replayed plain _ ([first] ++ [second]) := Replayed.ofLog chains
  exact checkLookup_refuses_withheld_revocation replayed (List.mem_singleton_self first)
    ⟨rfl, rfl, revocation, rfl, rfl⟩ none none none

theorem checkAnswer_congr {first second : LogStore Hash} {answer : LookupResult Hash}
    (same : first.latestFor sha256 answer.userId = second.latestFor sha256 answer.userId) :
    first.checkAnswer sha256 signatures answer = second.checkAnswer sha256 signatures answer := by
  unfold checkAnswer checkLookup revocationIsDeviceStatement
  rw [same]

end Silver.Client
