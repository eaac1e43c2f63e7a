import Silver.Foundation.Last
import Silver.Foundation.Run
import Silver.Protocol.Statements

/-!
# The transparency log

A relay keeps one hash-chained log with an entry for each change it serves.
Relay and client agree on the leaf of a bundle or statement, on the subject an
entry is filed under, and on how entries chain.  Chaining is a run of
`LogHead.extend`, so the lemmas about runs apply to it.
-/

namespace Silver.Protocol

open Foundation List

/-- SHA-256: its outputs, how an output stands inside a longer input, the
all-zero output, and the function itself. -/
structure Sha256 (Hash : Type) where
  digest : List UInt8 → Hash
  bytes : Hash → List UInt8
  zero : Hash

def Sha256.plain : Sha256 (List UInt8) :=
  { digest := id, bytes := id, zero := [] }

def SUBJECT_DOMAIN : List UInt8 :=
  utf8 "silver-messenger/v4/transparency-subject"

def ENTRY_DOMAIN : List UInt8 :=
  utf8 "silver-messenger/v4/transparency-entry"

def BUNDLE_LEAF_DOMAIN : List UInt8 :=
  utf8 "silver-messenger/v4/transparency-bundle"

def REVOCATION_LEAF_DOMAIN : List UInt8 :=
  utf8 "silver-messenger/v4/transparency-revocation"

def SUCCESSION_LEAF_DOMAIN : List UInt8 :=
  utf8 "silver-messenger/v4/transparency-succession"

def DEVICE_REVOCATION_LEAF_DOMAIN : List UInt8 :=
  utf8 "silver-messenger/v5/transparency-device-revocation"

def LOG_PAGE : Nat :=
  256

/-- Where a log stands: the number of entries and the hash of the last. -/
structure LogHead (Hash : Type) where
  index : Nat
  hash : Hash
deriving DecidableEq

def LogHead.EMPTY (sha256 : Sha256 Hash) : LogHead Hash :=
  ⟨0, sha256.zero⟩

/-- What an entry records. -/
inductive EntryKind where
  | bundle
  | revocation
  | succession
deriving DecidableEq

def EntryKind.byte : EntryKind → UInt8
  | .bundle => 1
  | .revocation => 2
  | .succession => 3

/-- One entry of the log. -/
structure LogEntry (Hash : Type) where
  index : Nat
  prev : Hash
  subject : Hash
  kind : EntryKind
  leaf : Hash
  atMs : Nat
deriving DecidableEq

/-- Where an identity appears in the log. -/
structure LogPosition (Hash : Type) where
  index : Nat
  leaf : Hash
deriving DecidableEq

section Hashing

variable (sha256 : Sha256 Hash)

namespace LogEntry

def after (head : LogHead Hash) (subject : Hash) (kind : EntryKind) (leaf : Hash)
    (atMs : Nat) : LogEntry Hash :=
  { index := head.index + 1
    prev := head.hash
    subject := subject
    kind := kind
    leaf := leaf
    atMs := atMs }

def hash (entry : LogEntry Hash) : Hash :=
  sha256.digest <|
    ENTRY_DOMAIN ++ sha256.bytes entry.prev ++ beBytes 8 entry.index ++
      sha256.bytes entry.subject ++ [entry.kind.byte] ++ sha256.bytes entry.leaf ++
      beBytes 8 entry.atMs

def head (entry : LogEntry Hash) : LogHead Hash :=
  ⟨entry.index, entry.hash sha256⟩

def follows [DecidableEq Hash] (entry : LogEntry Hash) (head : LogHead Hash) : Bool :=
  decide (entry.index = head.index + 1) && decide (entry.prev = head.hash)

def position (entry : LogEntry Hash) : LogPosition Hash :=
  ⟨entry.index, entry.leaf⟩

end LogEntry

def subject (user : UserId) : Hash :=
  sha256.digest (SUBJECT_DOMAIN ++ user.data)

def putVar (bytes : List UInt8) : List UInt8 :=
  beBytes 4 bytes.length ++ bytes

def putOption (encode : α → List UInt8) : Option α → List UInt8
  | none => [0]
  | some value => 1 :: encode value

def SignedPqPrekey.leafBytes (key : SignedPqPrekey) : List UInt8 :=
  beBytes 4 key.id ++ putVar key.kemPublic ++ beBytes 8 key.createdAtMs ++ key.signature.data

def Prekeys.leafBytes (prekeys : Prekeys) : List UInt8 :=
  beBytes 4 prekeys.signed.id ++ prekeys.signed.dhPublic.data ++
    beBytes 8 prekeys.signed.createdAtMs ++ prekeys.signed.signature.data ++
    putOption SignedPqPrekey.leafBytes prekeys.pqSigned

def KeyBundle.deviceLeafBytes (bundle : KeyBundle) : List UInt8 :=
  if bundle.devices ≠ [] ∨ bundle.deviceOf.isSome then
    beBytes 2 bundle.devices.length ++ (bundle.devices.flatMap fun device =>
        device.device.data ++ beBytes 8 device.createdAtMs) ++
      putOption Bytes.data bundle.devicesSignature ++
      putOption (fun certificate => putVar certificate.encode) bundle.deviceOf
  else []

/-- The leaf of a bundle: everything in it that its owner signed. -/
def KeyBundle.transparencyLeaf (bundle : KeyBundle) : Hash :=
  sha256.digest <|
    BUNDLE_LEAF_DOMAIN ++ bundle.userId.data ++ bundle.dhPublic.data ++ bundle.signature.data ++
      putOption Prekeys.leafBytes bundle.prekeys ++
      beBytes 4 bundle.caps.length ++
      (bundle.caps.flatMap fun cap => putVar (utf8 cap)) ++
      putOption Bytes.data bundle.capsSignature ++
      bundle.deviceLeafBytes

def Revocation.transparencyLeaf (revocation : Revocation) : Hash :=
  sha256.digest <|
    REVOCATION_LEAF_DOMAIN ++ revocation.identity.data ++
      beBytes 8 revocation.createdAtMs ++ revocation.signature.data

def Succession.transparencyLeaf (succession : Succession) : Hash :=
  sha256.digest <|
    SUCCESSION_LEAF_DOMAIN ++ succession.old.data ++ succession.new.data ++
      beBytes 8 succession.createdAtMs ++ succession.oldSignature.data ++
      succession.newSignature.data

def DeviceRevocation.transparencyLeaf (revocation : DeviceRevocation) : Hash :=
  sha256.digest <|
    DEVICE_REVOCATION_LEAF_DOMAIN ++ revocation.account.data ++
      revocation.device.data ++ beBytes 8 revocation.createdAtMs ++
      revocation.signature.data

end Hashing

/-- Why a page of entries could not be replayed onto a head. -/
inductive ReplayError where
  | broken (position found : Nat)
  | fork (position : Nat)
deriving DecidableEq

section Chains

variable [DecidableEq Hash] (sha256 : Sha256 Hash)

def LogHead.extend (head : LogHead Hash) (entry : LogEntry Hash) : Option (LogHead Hash) :=
  if entry.follows head then some (entry.head sha256) else none

def ChainsTo (log : List (LogEntry Hash)) (head : LogHead Hash) : Prop :=
  run (LogHead.extend sha256) (LogHead.EMPTY sha256) log = some head

variable {sha256}

theorem extend_eq_some {head next : LogHead Hash} : head.extend sha256 entry = some next ↔
      entry.follows head = true ∧ next = entry.head sha256 := by
  unfold LogHead.extend
  by_cases follows : entry.follows head <;> simp [follows, eq_comm]

@[simp] theorem extend_after
    (head : LogHead Hash) (subject leaf : Hash) (kind : EntryKind) (atMs : Nat) :
    head.extend sha256 (LogEntry.after head subject kind leaf atMs) =
      some ((LogEntry.after head subject kind leaf atMs).head sha256) := by
  rw [extend_eq_some]
  simp [LogEntry.follows, LogEntry.after]

theorem index_of_extend {head next : LogHead Hash}
    (extended : head.extend sha256 entry = some next) :
    entry.index = head.index + 1 ∧ next.index = head.index + 1 := by
  obtain ⟨follows, rfl⟩ := extend_eq_some.mp extended
  simp only [LogEntry.follows, Bool.and_eq_true, decide_eq_true_eq] at follows
  exact ⟨follows.1, follows.1⟩

theorem index_of_run_extend
    {head : LogHead Hash} (ended : run (LogHead.extend sha256) head entries = some final) :
    final.index = head.index + entries.length := by
  induction entries generalizing head with
  | nil => simp_all
  | cons _ _ ih =>
    rw [run_cons] at ended
    obtain ⟨_, extended, continued⟩ := Option.bind_eq_some_iff.mp ended
    have moved := ih continued
    have one := (index_of_extend extended).2
    simp only [length_cons]
    omega

theorem chainsTo_nil : ChainsTo sha256 [] (LogHead.EMPTY sha256) :=
  rfl

section

variable {head : LogHead Hash} (chains : ChainsTo sha256 log head)
include chains

theorem ChainsTo.index_eq : head.index = log.length := by
  simpa [LogHead.EMPTY] using index_of_run_extend chains

theorem ChainsTo.unique (chainsOther : ChainsTo sha256 log other) : head = other := by
  unfold ChainsTo at chains chainsOther
  simpa [chains] using chainsOther

theorem ChainsTo.append (ended : run (LogHead.extend sha256) head entries = some final) :
    ChainsTo sha256 (log ++ entries) final := by
  unfold ChainsTo at *
  rw [run_append, chains]
  exact ended

end

theorem ChainsTo.split (chains : ChainsTo sha256 (log ++ entries) final) :
    ∃ head, ChainsTo sha256 log head ∧ run (LogHead.extend sha256) head entries = some final := by
  unfold ChainsTo at *
  rw [run_append] at chains
  exact Option.bind_eq_some_iff.mp chains

end Chains

section Positions

def headAt (sha256 : Sha256 Hash) (log : List (LogEntry Hash)) (index : Nat) : LogHead Hash :=
  (log.take index).getLast?.elim (LogHead.EMPTY sha256) (LogEntry.head sha256)

variable {log : List (LogEntry Hash)}

@[simp] theorem headAt_zero : headAt sha256 log 0 = LogHead.EMPTY sha256 :=
  rfl

theorem headAt_succ (stands : log[index]? = some entry) :
    headAt sha256 log (index + 1) = entry.head sha256 := by
  simp [headAt, take_add_one, stands]

theorem headAt_append (within : index ≤ log.length) (more : List (LogEntry Hash)) :
    headAt sha256 (log ++ more) index = headAt sha256 log index := by
  simp [headAt, take_append_of_le_length within]

theorem headAt_of_isPrefix (starts : log <+: longer) (within : index ≤ log.length) :
    headAt sha256 longer index = headAt sha256 log index := by
  obtain ⟨more, rfl⟩ := starts
  exact headAt_append within more

variable [DecidableEq Hash]

theorem ChainsTo.eq_headAt {head : LogHead Hash} (chains : ChainsTo sha256 log head) :
    head = headAt sha256 log log.length := by
  cases log using reverseRecOn with
  | nil =>
    simp only [ChainsTo, run_nil, Option.some.injEq] at chains
    exact chains.symm
  | append_singleton =>
    obtain ⟨_, _, last⟩ := chains.split
    rw [run_cons] at last
    obtain ⟨_, extended, ended⟩ := Option.bind_eq_some_iff.mp last
    obtain ⟨_, rfl⟩ := extend_eq_some.mp extended
    simp only [run_nil, Option.some.injEq] at ended
    rw [headAt, take_length, ← ended, getLast?_concat]
    rfl

theorem ChainsTo.take {head : LogHead Hash} (chains : ChainsTo sha256 log head) (index : Nat) :
    ChainsTo sha256 (log.take index) (headAt sha256 log index) := by
  rw [← take_append_drop index log] at chains
  obtain ⟨_, upTo, _⟩ := chains.split
  have ends := upTo.eq_headAt
  rw [headAt, take_length] at ends
  rw [headAt, ← ends]
  exact upTo

theorem ChainsTo.of_isPrefix (chains : ChainsTo sha256 longer last) (starts : log <+: longer) :
    ChainsTo sha256 log (headAt sha256 log log.length) := by
  obtain ⟨_, rfl⟩ := starts
  have cut := chains.take log.length
  rw [take_left, headAt_append .refl] at cut
  exact cut

section

variable {head : LogHead Hash} (chains : ChainsTo sha256 log head)
include chains

theorem ChainsTo.index_headAt (within : index ≤ log.length) :
    (headAt sha256 log index).index = index := by
  rw [(chains.take index).index_eq, length_take, Nat.min_eq_left within]

theorem ChainsTo.extend_headAt (stands : log[index]? = some entry) :
    (headAt sha256 log index).extend sha256 entry = some (headAt sha256 log (index + 1)) := by
  have upTo := chains.take (index + 1)
  rw [take_add_one, stands] at upTo
  obtain ⟨_, before, last⟩ := upTo.split
  rw [(chains.take index).unique before]
  simpa [run_cons] using last

theorem ChainsTo.index_entry (stands : log[index]? = some entry) : entry.index = index + 1 := by
  have within : index ≤ log.length := by
    have := (List.getElem?_eq_some_iff.mp stands).1
    omega
  rw [(index_of_extend (chains.extend_headAt stands)).1, chains.index_headAt within]

theorem ChainsTo.run_between {start finish : Nat} (ordered : start ≤ finish) :
    run (LogHead.extend sha256) (headAt sha256 log start) ((log.take finish).drop start) =
      some (headAt sha256 log finish) := by
  have whole := chains.take finish
  rw [← take_append_drop start (log.take finish)] at whole
  obtain ⟨_, upTo, rest⟩ := whole.split
  rw [take_take, Nat.min_eq_left ordered] at upTo
  rw [(chains.take start).unique upTo]
  exact rest

end

def entriesSince (log : List (LogEntry Hash)) (index limit : Nat) : List (LogEntry Hash) :=
  (log.filter fun entry => index < entry.index).take limit

theorem ChainsTo.entriesSince_eq
    {head : LogHead Hash} (chains : ChainsTo sha256 log head) (index limit : Nat) :
    entriesSince log index limit = (log.drop index).take limit := by
  have before : (log.take index).filter (fun entry => index < entry.index) = [] := by
    rw [filter_eq_nil_iff]
    intro entry mem
    obtain ⟨position, stands⟩ := mem_iff_getElem?.mp mem
    rw [getElem?_take] at stands
    split at stands
    · have := chains.index_entry stands
      simp only [decide_eq_true_eq]
      omega
    · cases stands
  have after : (log.drop index).filter (fun entry => index < entry.index) = log.drop index := by
    rw [filter_eq_self]
    intro entry mem
    obtain ⟨position, stands⟩ := mem_iff_getElem?.mp mem
    rw [getElem?_drop] at stands
    have := chains.index_entry stands
    simp only [decide_eq_true_eq]
    omega
  have split : log.filter (fun entry => index < entry.index) = log.drop index := by
    conv_lhs => rw [← take_append_drop index log]
    rw [filter_append, before, after, nil_append]
  rw [entriesSince, split]

end Positions

section Reading

variable [DecidableEq Hash]

def lastAbout (subject : Hash) (log : List (LogEntry Hash)) : Option (LogEntry Hash) :=
  lastSome (fun entry => if entry.subject = subject then some entry else none) log

def lastOfKind (subject : Hash) (kind : EntryKind) (log : List (LogEntry Hash)) :
    Option (LogPosition Hash) :=
  lastSome
    (fun entry =>
      if entry.subject = subject ∧ entry.kind = kind then some entry.position else none)
    log

variable {subject : Hash}

theorem lastAbout_snoc : lastAbout subject (log ++ [entry]) =
      if entry.subject = subject then some entry else lastAbout subject log := by
  by_cases same : entry.subject = subject <;> simp [lastAbout, lastSome_snoc, same]

theorem lastAbout_append_others (others : ∀ entry ∈ more, entry.subject ≠ subject) :
    lastAbout subject (log ++ more) = lastAbout subject log := by
  induction more using reverseRecOn with
  | nil => rw [append_nil]
  | append_singleton more entry ih =>
    rw [← append_assoc, lastAbout_snoc,
      if_neg (others entry (mem_append_right _ (mem_singleton_self _)))]
    exact ih fun other mem => others other (mem_append_left _ mem)

theorem lastOfKind_snoc : lastOfKind subject kind (log ++ [entry]) =
      if entry.subject = subject ∧ entry.kind = kind then some entry.position
      else lastOfKind subject kind log := by
  by_cases same : entry.subject = subject ∧ entry.kind = kind <;>
    simp [lastOfKind, lastSome_snoc, same]

theorem lastOfKind_eq_none : lastOfKind subject kind log = none ↔
      ∀ entry ∈ log, ¬(entry.subject = subject ∧ entry.kind = kind) := by
  simp [lastOfKind, lastSome_eq_none]

theorem lastOfKind_eq_none_of_absent (absent : lastAbout subject log = none) :
    lastOfKind subject kind log = none := by
  rw [lastOfKind_eq_none]
  rintro entry mem ⟨same, _⟩
  have nothing := lastSome_eq_none.mp absent entry mem
  simp [same] at nothing

end Reading

section Injective

variable {sha256 : Sha256 Hash}

theorem subject_injective (noClash : Function.Injective sha256.digest) {left : UserId}
    (same : subject sha256 left = subject sha256 right) :
    left = right := by
  have := noClash same
  exact Bytes.ext (append_cancel_left this)

def Sha256.Delimited (sha256 : Sha256 Hash) : Prop :=
  ∀ {left right : Hash} {leftRest rightRest : List UInt8},
    sha256.bytes left ++ leftRest = sha256.bytes right ++ rightRest →
      left = right ∧ leftRest = rightRest

def LogEntry.content (entry : LogEntry Hash) : Nat × EntryKind × Hash × Hash × Hash :=
  (entry.index, entry.kind, entry.subject, entry.leaf, entry.prev)

theorem EntryKind.byte_injective : Function.Injective EntryKind.byte := by
  intro left right
  cases left <;> cases right <;> decide

variable (noClash : Function.Injective sha256.digest) (delimited : sha256.Delimited)
include noClash delimited

theorem LogEntry.content_eq_of_hash
    {first second : LogEntry Hash} (index : first.index = second.index)
    (same : first.hash sha256 = second.hash sha256) :
    first.content = second.content := by
  have encoded := noClash same
  simp only [append_assoc, append_cancel_left_eq] at encoded
  obtain ⟨prev, encoded⟩ := delimited encoded
  obtain ⟨-, encoded⟩ := append_inj encoded rfl
  obtain ⟨subject, encoded⟩ := delimited encoded
  obtain ⟨kind, encoded⟩ := append_inj encoded rfl
  obtain ⟨leaf, -⟩ := delimited encoded
  have sameKind := EntryKind.byte_injective (singleton_inj.mp kind)
  simp [content, index, sameKind, subject, leaf, prev]

theorem ChainsTo.content_eq [DecidableEq Hash] {first : List (LogEntry Hash)} {head : LogHead Hash}
    (left : ChainsTo sha256 first head) (right : ChainsTo sha256 second head) :
    first.map LogEntry.content = second.map LogEntry.content := by
  have lengths : first.length = second.length := left.index_eq.symm.trans right.index_eq
  -- The last entries hash to the head, and what they name is where the rest ends.
  induction first using reverseRecOn generalizing second head with
  | nil => rw [length_eq_zero_iff.mp lengths.symm]
  | append_singleton before _ ih =>
    cases second using reverseRecOn with
    | nil => simp at lengths
    | append_singleton rest last =>
      obtain ⟨middle, toMiddle, ends⟩ := left.split
      obtain ⟨other, toOther, endsOther⟩ := right.split
      simp only [run_cons, run_nil, Option.bind_fun_some, extend_eq_some, LogEntry.follows,
        Bool.and_eq_true, decide_eq_true_eq] at ends endsOther
      obtain ⟨⟨index, prev⟩, rfl⟩ := ends
      obtain ⟨⟨otherIndex, otherPrev⟩, same⟩ := endsOther
      have content := LogEntry.content_eq_of_hash noClash delimited
        (congrArg LogHead.index same) (congrArg LogHead.hash same)
      have sameMiddle : middle = other := by
        simp only [LogEntry.content, Prod.mk.injEq, index, otherIndex, prev, otherPrev] at content
        exact congrArg₂ LogHead.mk (by omega) content.2.2.2.2
      have shorter : before.length = rest.length := by simpa using lengths
      rw [map_append, map_append, ih toMiddle (sameMiddle ▸ toOther) shorter,
        map_singleton, map_singleton, content]

end Injective

end Silver.Protocol
