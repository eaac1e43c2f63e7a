import Silver.Foundation.Ledger
import Silver.Relay.Mailbox.Defs

/-!
# Blobs

The relay keeps encrypted files in chunks, with a record of each file and a count of all
bytes.  A sweep reads which files are too old in one transaction and removes them in
another, by the records it read.  The counts are right as long as those records have not
changed in between.
-/

namespace Silver.Relay.Blobs

open Foundation List Option
open Prod (snd fst)
open Mailbox (checkedAdd checkedAdd_eq)

/-- What the relay knows about a blob. -/
structure BlobMeta where
  total : Nat
  received : Nat
  bytes : Nat
  createdAtMs : Nat
deriving DecidableEq

def BlobMeta.isComplete (record : BlobMeta) : Bool :=
  record.received = record.total

/-- A chunk as stored: its blob, its index and its bytes. -/
structure Chunk where
  blob : String
  index : Nat
  data : List UInt8
deriving DecidableEq

def Chunk.key (chunk : Chunk) : String × Nat :=
  (chunk.blob, chunk.index)

def Chunk.size (chunk : Chunk) : Nat :=
  chunk.data.length

/-- Caps on encrypted file storage. -/
structure BlobLimits where
  maxBlobBytes : Nat
  maxTotalBytes : Nat
deriving DecidableEq

def BlobLimits.default : BlobLimits :=
  ⟨16 * 1024 * 1024 + 256 * 16, 1024 * 1024 * 1024⟩

/-- Outcome of storing a chunk. -/
inductive BlobPut where
  | stored (complete : Bool)
  | duplicate
  | mismatch
  | tooLarge
  | storageFull
deriving DecidableEq

/-- The tables of blobs: their records, their chunks and the bytes of all chunks; and the
sweeps that have read which blobs are too old and have not removed them yet. -/
structure Store where
  blobs : List (String × BlobMeta)
  chunks : List Chunk
  blobBytes : Nat
  sweeps : List (List (String × BlobMeta))
deriving DecidableEq

/-- What is done to the store, each in one transaction. -/
inductive Move where
  | put (blob : String) (index total : Nat) (data : List UInt8) (nowMs : Nat)
      (limits : BlobLimits)
  | scan (cutoffMs : Nat)
  | remove (sweep : Nat)
deriving DecidableEq

namespace Store

def empty : Store :=
  ⟨[], [], 0, []⟩

def blobMeta (store : Store) (blob : String) : Option BlobMeta :=
  (store.blobs.find? fun entry => entry.1 = blob).map snd

def chunk (store : Store) (blob : String) (index : Nat) : Option Chunk :=
  store.chunks.find? fun chunk => chunk.key = (blob, index)

def others (store : Store) (blob : String) : List (String × BlobMeta) :=
  store.blobs.filter fun entry => entry.1 ≠ blob

/-- Store one chunk of a blob, creating the blob on its first chunk; none where a sum does
not fit. -/
def putBlobChunk (store : Store) (blob : String) (index total : Nat) (data : List UInt8)
    (nowMs : Nat) (limits : BlobLimits) : Option (BlobPut × Store) :=
  let known := (store.blobMeta blob).getD ⟨total, 0, 0, nowMs⟩
  if known.total ≠ total ∨ total ≤ index then some (.mismatch, store)
  else if (store.chunk blob index).isSome then some (.duplicate, store)
  else
    (checkedAdd known.bytes data.length).bind fun bytes =>
      if limits.maxBlobBytes < bytes then some (.tooLarge, store)
      else
        (checkedAdd store.blobBytes data.length).map fun blobBytes =>
          if limits.maxTotalBytes < blobBytes then (.storageFull, store)
          else
            let record : BlobMeta := { known with received := known.received + 1, bytes }
            (.stored record.isComplete,
              { store with
                chunks := store.chunks ++ [⟨blob, index, data⟩]
                blobs := store.others blob ++ [(blob, record)]
                blobBytes })

def victims (store : Store) (cutoffMs : Nat) : List (String × BlobMeta) :=
  store.blobs.filter fun entry => entry.2.createdAtMs < cutoffMs

def scan (store : Store) (cutoffMs : Nat) : Store :=
  if store.victims cutoffMs = [] then store
  else { store with sweeps := store.sweeps ++ [store.victims cutoffMs] }

def removeBlob (store : Store) (victim : String × BlobMeta) : Store :=
  { store with
    chunks := store.chunks.filter fun chunk =>
      !(chunk.blob = victim.1 && chunk.index < victim.2.total)
    blobs := store.others victim.1
    blobBytes := store.blobBytes - victim.2.bytes }

def remove (store : Store) (sweep : Nat) : Option Store :=
  (store.sweeps[sweep]?).map fun victims =>
    victims.foldl removeBlob { store with sweeps := store.sweeps.eraseIdx sweep }

def step (store : Store) : Move → Option Store
  | .put blob index total data nowMs limits =>
    (store.putBlobChunk blob index total data nowMs limits).map snd
  | .scan cutoffMs => some (store.scan cutoffMs)
  | .remove sweep => store.remove sweep

def charge (store : Store) (blob : String) : Nat × Nat :=
  Ledger.charge Chunk.blob Chunk.size store.chunks blob

/-- The counts are what the chunks come to, and every chunk is of a blob there is a record
of. -/
structure Consistent (store : Store) : Prop where
  bytes : store.blobBytes = Ledger.total Chunk.size store.chunks
  records : ∀ blob record, (blob, record) ∈ store.blobs →
    (record.received, record.bytes) = store.charge blob
  owned : ∀ chunk ∈ store.chunks, ∃ record, (chunk.blob, record) ∈ store.blobs

def Steady (store : Store) : Move → Prop
  | .remove sweep => ∀ victims, store.sweeps[sweep]? = some victims →
      ∀ victim ∈ victims, victim ∈ store.blobs
  | _ => True

/-- What holds between steady transactions: consistent counts, records and chunks under
keys of their own, and no chunk past what its blob announced. -/
structure Sound (store : Store) : Prop where
  consistent : store.Consistent
  blobsOnce : (store.blobs.map fst).Nodup
  inside : ∀ blob record, (blob, record) ∈ store.blobs →
    ∀ chunk ∈ store.chunks, chunk.blob = blob → chunk.index < record.total
  sweepsOnce : ∀ victims ∈ store.sweeps, (victims.map fst).Nodup

namespace Sound

variable {store after : Store}

theorem empty : Store.empty.Sound where
  consistent :=
    { bytes := rfl, records := nofun, owned := nofun }
  blobsOnce := nodup_nil
  inside _ _ mem := nomatch mem
  sweepsOnce _ mem := nomatch mem

theorem blobMeta_eq_some (found : store.blobMeta blob = some record) :
    (blob, record) ∈ store.blobs := by
  obtain ⟨⟨name, _⟩, first, rfl⟩ := map_eq_some_iff.mp found
  have same : name = blob := by simpa using find?_some first
  rw [← same]
  exact mem_of_find?_eq_some first

theorem blobMeta_eq_none (absent : store.blobMeta blob = none) (record : BlobMeta) :
    (blob, record) ∉ store.blobs := by
  intro mem
  have missing := find?_eq_none.mp (map_eq_none_iff.mp absent) _ mem
  simp at missing

theorem known (sound : store.Sound) (blob : String) (total nowMs : Nat) :
    let known := (store.blobMeta blob).getD ⟨total, 0, 0, nowMs⟩
    (known.received, known.bytes) = store.charge blob ∧
      ∀ chunk ∈ store.chunks, chunk.blob = blob → chunk.index < known.total := by
  cases found : store.blobMeta blob with
  | some record =>
    have mem := blobMeta_eq_some found
    exact ⟨sound.consistent.records blob record mem, sound.inside blob record mem⟩
  | none =>
    have none : ∀ chunk ∈ store.chunks, chunk.blob ≠ blob := by
      rintro chunk mem rfl
      obtain ⟨record, listed⟩ := sound.consistent.owned chunk mem
      exact blobMeta_eq_none found record listed
    refine ⟨?_, fun chunk mem own => absurd own (none chunk mem)⟩
    have owned : Ledger.owned Chunk.blob store.chunks blob = [] :=
      filter_eq_nil_iff.mpr fun chunk mem => by simpa using none chunk mem
    simp [charge, Ledger.charge, owned]

theorem mem_others : entry ∈ store.others blob ↔ entry ∈ store.blobs ∧ entry.1 ≠ blob := by
  simp [others]

theorem stored (sound : store.Sound) {bytes : Nat} {data : List UInt8}
    (total : store.blobBytes + data.length = bytes)
    (counted : (record.received, record.bytes) =
      ((store.charge blob).1 + 1, (store.charge blob).2 + data.length))
    (room : index < record.total)
    (inside : ∀ chunk ∈ store.chunks, chunk.blob = blob → chunk.index < record.total) :
    ({ store with
        chunks := store.chunks ++ [⟨blob, index, data⟩]
        blobs := store.others blob ++ [(blob, record)]
        blobBytes := bytes } : Store).Sound := by
  have same : (store.chunks ++ [Chunk.mk blob index data]).Perm
      (⟨blob, index, data⟩ :: store.chunks) :=
    perm_append_singleton _ _
  have charged : ∀ name, Ledger.charge Chunk.blob Chunk.size
      (store.chunks ++ [Chunk.mk blob index data]) name =
        if blob = name then ((store.charge name).1 + 1, data.length + (store.charge name).2)
        else store.charge name := fun name =>
    (Ledger.charge_perm Chunk.blob Chunk.size same name).trans (Ledger.charge_cons _ _ _ _ name)
  refine ⟨⟨?_, ?_, ?_⟩, ?_, ?_, sound.sweepsOnce⟩
  · show bytes = Ledger.total _ _
    rw [Ledger.total_perm Chunk.size same, Ledger.total_cons, ← sound.consistent.bytes, ← total]
    exact Nat.add_comm _ _
  · intro name value mem
    show _ = Ledger.charge _ _ _ _
    rw [charged name]
    rcases mem_append.mp mem with other | new
    · obtain ⟨listed, apart⟩ := mem_others.mp other
      rw [if_neg (Ne.symm apart)]
      exact sound.consistent.records name value listed
    obtain ⟨rfl, rfl⟩ := Prod.mk.inj (mem_singleton.mp new)
    rw [if_pos rfl, counted, Nat.add_comm _ data.length]
  · intro chunk mem
    rcases mem_append.mp mem with earlier | new
    · by_cases own : chunk.blob = blob
      · exact ⟨record, mem_append_right _ (by simp [own])⟩
      obtain ⟨value, listed⟩ := sound.consistent.owned chunk earlier
      exact ⟨value, mem_append_left _ (mem_others.mpr ⟨listed, own⟩)⟩
    obtain rfl := mem_singleton.mp new
    exact ⟨record, mem_append_right _ (by simp)⟩
  · show ((store.others blob ++ [(blob, record)]).map fst).Nodup
    rw [map_append, nodup_append]
    refine ⟨sound.blobsOnce.sublist (List.Sublist.map _ filter_sublist), by simp, ?_⟩
    intro name listed other last equal
    obtain ⟨_, mem, rfl⟩ := mem_map.mp listed
    have own : other = blob := mem_singleton.mp last
    exact (mem_others.mp mem).2 (equal.trans own)
  intro name value listed chunk mem own
  rcases mem_append.mp listed with other | new
  · obtain ⟨before, apart⟩ := mem_others.mp other
    rcases mem_append.mp mem with earlier | last
    · exact sound.inside name value before chunk earlier own
    obtain rfl := mem_singleton.mp last
    exact absurd own.symm apart
  obtain ⟨rfl, rfl⟩ := Prod.mk.inj (mem_singleton.mp new)
  rcases mem_append.mp mem with earlier | last
  · exact inside chunk earlier own
  obtain rfl := mem_singleton.mp last
  exact room

theorem put (sound : store.Sound) {total : Nat}
    (answered : store.putBlobChunk blob index total data nowMs limits = some (outcome, after)) :
    after.Sound := by
  obtain ⟨counted, inside⟩ := sound.known blob total nowMs
  unfold putBlobChunk at answered
  dsimp only at answered counted inside
  generalize (store.blobMeta blob).getD ⟨total, 0, 0, nowMs⟩ = known at answered counted inside
  split at answered
  · obtain ⟨-, rfl⟩ := Prod.mk.inj (some.inj answered)
    exact sound
  next =>
    split at answered
    · obtain ⟨-, rfl⟩ := Prod.mk.inj (some.inj answered)
      exact sound
    obtain ⟨_, added, answered⟩ := bind_eq_some_iff.mp answered
    split at answered
    · obtain ⟨-, rfl⟩ := Prod.mk.inj (some.inj answered)
      exact sound
    obtain ⟨_, totalled, answered⟩ := map_eq_some_iff.mp answered
    split at answered
    · obtain ⟨-, rfl⟩ := Prod.mk.inj answered
      exact sound
    obtain ⟨-, rfl⟩ := Prod.mk.inj answered
    obtain ⟨rfl, -⟩ := checkedAdd_eq added
    obtain ⟨rfl, -⟩ := checkedAdd_eq totalled
    have room : index < known.total := by omega
    refine sound.stored rfl ?_ room inside
    rw [← counted]

theorem removeBlob (sound : store.Sound) (listed : victim ∈ store.blobs) :
    (store.removeBlob victim).Sound := by
  obtain ⟨name, record⟩ := victim
  have chunks : (store.removeBlob (name, record)).chunks =
      store.chunks.filter fun chunk => chunk.blob ≠ name := by
    refine filter_congr fun chunk mem => ?_
    by_cases own : chunk.blob = name
    · simp [own, sound.inside name record listed chunk mem own]
    · simp [own]
  have charged := Ledger.charge_others Chunk.blob Chunk.size store.chunks name
  have counted := sound.consistent.records name record listed
  refine ⟨⟨?_, ?_, ?_⟩, ?_, ?_, sound.sweepsOnce⟩
  · have bytes : record.bytes = (store.charge name).2 := congrArg snd counted
    show store.blobBytes - record.bytes = _
    rw [chunks, sound.consistent.bytes, bytes,
      Ledger.total_eq_charge_add Chunk.blob Chunk.size store.chunks name]
    exact Nat.add_sub_cancel_left _ _
  · intro other value mem
    obtain ⟨before, apart⟩ := mem_others.mp mem
    rw [charge, chunks, charged, if_neg apart]
    exact sound.consistent.records other value before
  · intro chunk mem
    rw [chunks, mem_filter, decide_eq_true_eq] at mem
    obtain ⟨value, before⟩ := sound.consistent.owned chunk mem.1
    exact ⟨value, mem_others.mpr ⟨before, mem.2⟩⟩
  · exact sound.blobsOnce.sublist (List.Sublist.map _ filter_sublist)
  intro other value mem chunk among own
  obtain ⟨before, -⟩ := mem_others.mp mem
  exact sound.inside other value before chunk (mem_of_mem_filter among) own

theorem removeBlobs
    {victims : List (String × BlobMeta)} (sound : store.Sound) (once : (victims.map fst).Nodup)
    (listed : ∀ victim ∈ victims, victim ∈ store.blobs) :
    (victims.foldl Store.removeBlob store).Sound := by
  induction victims generalizing store with
  | nil => exact sound
  | cons victim _ ih =>
    obtain ⟨fresh, restOnce⟩ := nodup_cons.mp once
    refine ih (sound.removeBlob (listed victim (.head _))) restOnce
      fun other mem => ?_
    refine mem_others.mpr ⟨listed other (.tail _ mem), fun same => fresh ?_⟩
    rw [← same]
    exact mem_map_of_mem mem

theorem step (sound : store.Sound) (steady : store.Steady move)
    (ran : store.step move = some after) :
    after.Sound := by
  cases move with
  | put =>
    obtain ⟨⟨_, _⟩, answered, rfl⟩ := map_eq_some_iff.mp ran
    exact sound.put answered
  | scan =>
    cases ran
    unfold Store.scan
    split
    · exact sound
    refine ⟨⟨sound.consistent.bytes, sound.consistent.records, sound.consistent.owned⟩,
      sound.blobsOnce, sound.inside, fun victims mem => ?_⟩
    rcases mem_append.mp mem with earlier | new
    · exact sound.sweepsOnce victims earlier
    obtain rfl := mem_singleton.mp new
    exact sound.blobsOnce.sublist (List.Sublist.map _ filter_sublist)
  | remove =>
    obtain ⟨victims, pending, rfl⟩ := map_eq_some_iff.mp ran
    have once := sound.sweepsOnce victims (mem_of_getElem? pending)
    refine removeBlobs ⟨⟨sound.consistent.bytes, sound.consistent.records,
      sound.consistent.owned⟩, sound.blobsOnce, sound.inside, fun others mem => ?_⟩ once
      (steady victims pending)
    exact sound.sweepsOnce others (mem_of_mem_eraseIdx mem)

end Sound

end Store

/-- In every state reached by transactions that are all steady, the counts are what the
chunks come to and every chunk is of a blob with a record. -/
theorem blobs_accounted {moves : List Move} {store : Store}
    (steady : EachState Store.step Store.Steady Store.empty moves)
    (reached : run Store.step Store.empty moves = some store) :
    store.Consistent := by
  have preserve : ∀ move state next, Store.Sound state → Store.Steady state move →
      Store.step state move = some next → Store.Sound next :=
    fun _ _ _ sound steady stepped => sound.step steady stepped
  exact (EachState.run_keeps steady Store.Sound.empty preserve reached).consistent

instance (store : Store) : ∀ move, Decidable (store.Steady move)
  | .put _ _ _ _ _ _ | .scan _ => inferInstanceAs (Decidable True)
  | .remove sweep =>
    match found : store.sweeps[sweep]? with
    | none => .isTrue fun _ pending => nomatch found.symm.trans pending
    | some victims => decidable_of_iff (∀ victim ∈ victims, victim ∈ store.blobs)
        ⟨fun listed _ pending => Option.some.inj (found.symm.trans pending) ▸ listed,
          fun steady => steady victims found⟩

def upload (blob : String) (index total : Nat) (nowMs : Nat) : Move :=
  .put blob index total [1, 2, 3] nowMs BlobLimits.default

/-- A file is uploaded, and swept away once it is too old. -/
theorem file_swept : (∃ store, run Store.step Store.empty
        [upload "a" 0 2 5, upload "b" 0 1 9, upload "a" 1 2 6, .scan 8, upload "c" 0 2 10,
          .remove 0] = some store ∧ store.blobBytes = 6) ∧
      ∀ store, run Store.step Store.empty
        [upload "a" 0 2 5, upload "b" 0 1 9, upload "a" 1 2 6, .scan 8, upload "c" 0 2 10,
          .remove 0] = some store → store.Consistent :=
  ⟨⟨_, rfl, rfl⟩, fun _ reached => blobs_accounted (by decide +kernel) reached⟩

/-- A chunk that comes in while a sweep is under way is removed and still counted; a file two
sweeps have found is taken off the count twice; and a file that was removed and announced
anew in larger leaves chunks without a record. -/
theorem sweeps_miscount : ((run Store.step Store.empty
        [upload "a" 0 2 5, .scan 8, upload "a" 1 2 6, .remove 0]).any fun store =>
      store.chunks = [] && store.blobBytes = 3) = true ∧
    ((run Store.step Store.empty
        [upload "a" 0 1 5, upload "b" 0 1 9, .scan 8, .scan 8, .remove 0, .remove 0]).any
      fun store => store.chunks.length = 1 && store.blobBytes = 0) = true ∧
    ((run Store.step Store.empty
        [upload "a" 0 1 5, .scan 8, .scan 8, .remove 0, upload "a" 1 2 9, .remove 0]).any
      fun store => store.blobs = [] && store.chunks.length = 1) = true := by
  decide +kernel

end Silver.Relay.Blobs
