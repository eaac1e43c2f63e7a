import Silver.Client.History.Readable

/-!
# What a change leaves of the lines a log holds

Removing messages and deleting them for everyone rewrite the whole file.  Lines
that do not parse go through a rewrite as they are, so what is left is a
function of the lines that do, and an entry stays unless it is removed itself.
-/

namespace Silver.Client

open Foundation Protocol Log
open Except (toOption)
open List hiding after length

section Lines

def HistoryLine.withoutMessages (ids : List String) (line : HistoryLine) : Option HistoryLine :=
  (Log.withoutMessages ids (.ok line)).bind toOption

def HistoryLine.afterDeletion (going : List String) (line : HistoryLine) : Option HistoryLine :=
  (Log.afterDeletion going (.ok line)).bind toOption

def removedLines (ids : List String) (lines : List HistoryLine) : List HistoryLine :=
  lines.filterMap (HistoryLine.withoutMessages ids) ++ ids.map fun id => .gone id none

def goingIds (conversation : Conversation) (ids : List String) (sender : Option UserId)
    (lines : List HistoryLine) : List String :=
  ids.filter fun id => Log.deletionOf conversation (lines.map .ok) sender id = .applied

def deletedLines (conversation : Conversation) (ids : List String) (sender : Option UserId)
    (lines : List HistoryLine) : List HistoryLine :=
  lines.filterMap (HistoryLine.afterDeletion (goingIds conversation ids sender lines))

theorem filterMap_toOption {change : Except Text HistoryLine → Option (Except Text HistoryLine)}
    (passes : ∀ raw, change (.error raw) = some (.error raw))
    (entries : List (Except Text HistoryLine)) :
    (entries.filterMap change).filterMap toOption =
      (entries.filterMap toOption).filterMap fun line =>
        (change (.ok line)).bind toOption := by
  rw [filterMap_filterMap, filterMap_filterMap]
  congr 1
  funext entry
  cases entry with
  | ok line => rfl
  | error raw =>
    rw [passes]
    rfl

theorem heldAuthor_toOption
    (conversation : Conversation) (entries : List (Except Text HistoryLine)) (id : String) :
    heldAuthor conversation entries id =
      heldAuthor conversation ((entries.filterMap toOption).map .ok) id := by
  simp only [heldAuthor, lastSome]
  rw [filterMap_map, filterMap_filterMap]
  congr 2
  funext entry
  cases entry <;> rfl

theorem stored_of_withoutMessages
    {ids : List String} {line kept : HistoryLine} (stored : line.stored = line)
    (left : line.withoutMessages ids = some kept) :
    kept.stored = kept := by
  cases line with
  | entry =>
    simp only [HistoryLine.withoutMessages, withoutMessages] at left
    split at left
    · cases left
    cases left
    exact stored
  | _ =>
    simp only [HistoryLine.withoutMessages, withoutMessages] at left
    split at left
    · cases left
    cases left
    rfl

theorem stored_of_afterDeletion {line kept : HistoryLine} (stored : line.stored = line)
    (left : line.afterDeletion going = some kept) :
    kept.stored = kept := by
  cases line with
  | entry message =>
    have unread : message.receipt = none := by
      have same := HistoryLine.entry.inj stored
      rw [← same]
    simp only [HistoryLine.afterDeletion, afterDeletion] at left
    split at left
    · cases left
      simp [HistoryLine.stored, unread]
    cases left
    exact stored
  | edit | react | text =>
    simp only [HistoryLine.afterDeletion, afterDeletion] at left
    split at left
    · cases left
    cases left
    rfl
  | receipt | read | gone =>
    cases left
    rfl

end Lines

namespace Log

variable (cipher : LineCipher Ciphertext) (json : LineJson) (name : String)
  (conversation : Conversation)
variable {log : Log Ciphertext} {text : Text}

/-- The log after the file has been rewritten, where a change does that. -/
def rewritten (log : Log Ciphertext) : LogOperation → Option (Log Ciphertext)
  | .appendHistoryLine _ => none
  | .removeMessages ids =>
    if log.file.isSome then
      (removeMessages cipher json name conversation ids log).toOption.map Prod.snd
    else none
  | .markAllDeleted ids sender =>
    (markAllDeleted cipher json name conversation ids sender log).toOption.bind fun done =>
      if Deletion.applied ∈ done.1 then some done.2 else none

variable {cipher json name conversation}

theorem readHistoryLines_encodeUtf8 (held : log.file = some (encodeUtf8 text))
    (long : ∀ length ∈ log.recorded, length ≤ byteSize text) :
    readHistoryLines cipher json name log =
      .ok ((linesWithOffsets text).map (parseLine cipher json name)) := by
  have read : readText name (encodeUtf8 text) log.recorded = .ok text := by
    simp only [readText, decodeUtf8_encodeUtf8]
    cases recorded : log.recorded with
    | none => rfl
    | some length =>
      have enough := long length recorded
      simp [size_encodeUtf8, Nat.not_lt.mpr enough]
  simp [readHistoryLines, held, read, Except.map]

theorem readHistoryLines_short (held : log.file = some (encodeUtf8 text))
    (recorded : log.recorded = some length) (short : byteSize text < length) :
    readHistoryLines cipher json name log = .error (.shorter name (byteSize text) length) := by
  simp [readHistoryLines, held, recorded, readText, decodeUtf8_encodeUtf8, size_encodeUtf8, short,
    Except.map]

/-- A log whose file reads as some lines and is as long as the record says. -/
structure Reads (cipher : LineCipher Ciphertext) (json : LineJson) (name : String)
    (log : Log Ciphertext) (text : Text) (lines : List HistoryLine) : Prop where
  held : log.file = some (encodeUtf8 text)
  readable : Readable cipher json name text lines
  long : ∀ length ∈ log.recorded, length ≤ byteSize text

theorem long_of_noted (noted : log.recorded = log.file.map ByteArray.size)
    (held : log.file = some (encodeUtf8 text)) :
    ∀ length ∈ log.recorded, length ≤ byteSize text := by
  intro length recorded
  rw [held, Option.map_some, size_encodeUtf8] at noted
  exact (Option.some.inj (noted.symm.trans recorded)).ge

theorem Reads.loadHistory
    (reads : log.Reads cipher json name text lines) (conversation : Conversation) :
    loadHistory cipher json name conversation log = .ok (entriesOf conversation lines) := by
  rw [Log.loadHistory, readHistoryLines_encodeUtf8 reads.held reads.long, Except.map,
    reads.readable.reads]

section

variable (reliable : ReliableFormat cipher json)
include reliable

theorem reads_appendHistoryLine (readable : Readable cipher json name text lines)
    (held : log.file.getD ByteArray.empty = encodeUtf8 text) (line : HistoryLine) :
    (appendHistoryLine cipher name (json.toText line) log).Reads cipher json name
      (text ++ appendedText cipher name (json.toText line) log) (lines ++ [line.stored]) := by
  have written : (appendHistoryLine cipher name (json.toText line) log).file =
      some (encodeUtf8 (text ++ appendedText cipher name (json.toText line) log)) := by
    rw [file_appendHistoryLine, held, encodeUtf8_append]
  obtain ⟨_, reads, whole | ⟨-, cut⟩⟩ := readable.appendedText reliable held line
    (appendedText cipher name (json.toText line) log).length
  · rw [take_length, whole] at reads
    exact ⟨written, reads, long_of_noted rfl written⟩
  · exact absurd cut (Nat.lt_irrefl _)

theorem reads_writeHistoryLines (passing : Passing cipher json name entries)
    (parsed : entries.filterMap toOption = lines)
    (stored : ∀ line ∈ lines, line.stored = line) (log : Log Ciphertext) :
    ∃ rest, (writeHistoryLines cipher json name entries log).Reads cipher json name rest lines := by
  refine ⟨_, rfl, ?_, long_of_noted rfl rfl⟩
  have start : Readable cipher json name (([], log) : Text × Log Ciphertext).1 [] := readable_nil
  have written := readable_foldl_writeLine reliable passing start (.inl rfl)
  have same : lines.map HistoryLine.stored = lines := (map_congr_left stored).trans (map_id _)
  rwa [parsed, same, nil_append] at written

theorem rewritten_removeMessages (reads : log.Reads cipher json name text lines)
    (conversation : Conversation) (ids : List String) :
    ∃ after rest, rewritten cipher json name conversation log (.removeMessages ids) = some after ∧
      after.Reads cipher json name rest (removedLines ids lines) := by
  let tombstones : List (Except Text HistoryLine) := ids.map fun id => .ok (.gone id none)
  let entries := (linesWithOffsets text).map (parseLine cipher json name)
  have read : readHistoryLines cipher json name log = .ok entries :=
    readHistoryLines_encodeUtf8 reads.held reads.long
  have passes : ∀ raw, withoutMessages ids (.error raw) = some (.error raw) := fun _ => rfl
  have removes : rewritten cipher json name conversation log (.removeMessages ids) =
      some (writeHistoryLines cipher json name
        (entries.filterMap (withoutMessages ids) ++ tombstones) log) := by
    simp only [rewritten, removeMessages, reads.held, loadHistory, read]
    rfl
  have passing : Passing cipher json name (entries.filterMap (withoutMessages ids) ++ tombstones) := by
    have kept : Passing cipher json name (entries.filterMap (withoutMessages ids)) := by
      refine reads.readable.passing.filterMap (fun line raw gives => ?_) passes
      cases line <;> simp only [withoutMessages] at gives <;> split at gives <;> cases gives
    intro raw mem
    rcases mem_append.mp mem with before | tombstone
    · exact kept raw before
    obtain ⟨id, -, same⟩ := mem_map.mp tombstone
    cases same
  have parsed : (entries.filterMap (withoutMessages ids) ++ tombstones).filterMap toOption =
      removedLines ids lines := by
    rw [filterMap_append, filterMap_toOption passes, reads.readable.reads, removedLines]
    congr 1
    rw [filterMap_map]
    exact congrFun filterMap_eq_map' ids
  have stored : ∀ line ∈ removedLines ids lines, line.stored = line := by
    intro line mem
    rcases mem_append.mp mem with kept | tombstone
    · obtain ⟨before, within, left⟩ := mem_filterMap.mp kept
      exact stored_of_withoutMessages (reads.readable.stored before within) left
    obtain ⟨id, -, rfl⟩ := mem_map.mp tombstone
    rfl
  obtain ⟨rest, left⟩ := reads_writeHistoryLines reliable passing parsed stored log
  exact ⟨_, rest, removes, left⟩

end

theorem applied_mem_iff {ids : List String} :
    Deletion.applied ∈ ids.map deletion ↔ ids.filter (fun id => deletion id = .applied) ≠ [] := by
  simp [filter_eq_nil_iff]

theorem rewritten_markAllDeleted
    (reliable : ReliableFormat cipher json) (reads : log.Reads cipher json name text lines)
    (conversation : Conversation) (ids : List String) (sender : Option UserId) :
    rewritten cipher json name conversation log (.markAllDeleted ids sender) = none ∧
        deletedLines conversation ids sender lines = lines ∨
      ∃ after rest,
        rewritten cipher json name conversation log (.markAllDeleted ids sender) = some after ∧
        after.Reads cipher json name rest (deletedLines conversation ids sender lines) := by
  let entries := (linesWithOffsets text).map (parseLine cipher json name)
  have read : readHistoryLines cipher json name log = .ok entries :=
    readHistoryLines_encodeUtf8 reads.held reads.long
  let going := goingIds conversation ids sender lines
  have reached : (ids.filter fun id =>
      deletionOf conversation entries sender id = .applied) = going := by
    simp only [going, goingIds, deletionOf, heldAuthor_toOption conversation entries, entries,
      reads.readable.reads]
    rfl
  by_cases empty : going = []
  · refine .inl ⟨?_, ?_⟩
    · have unreached := mt applied_mem_iff.mp (not_not.mpr (reached.trans empty))
      simp only [rewritten, markAllDeleted, read, bind, Except.bind, reached, empty]
      simp [toOption, unreached]
    have unchanged : HistoryLine.afterDeletion [] = some := by
      funext line
      cases line <;> rfl
    rw [deletedLines, show goingIds conversation ids sender lines = [] from empty, unchanged,
      filterMap_some]
  right
  have passes : ∀ raw, afterDeletion going (.error raw) = some (.error raw) := fun _ => rfl
  have deletes : rewritten cipher json name conversation log (.markAllDeleted ids sender) =
      some (writeHistoryLines cipher json name (entries.filterMap (afterDeletion going)) log) := by
    have applied := applied_mem_iff.mpr (fun same => empty (reached.symm.trans same))
    simp only [rewritten, markAllDeleted, read, bind, Except.bind, reached,
      isEmpty_eq_false_iff.mpr empty]
    simp [toOption, applied]
  have passing : Passing cipher json name (entries.filterMap (afterDeletion going)) := by
    refine reads.readable.passing.filterMap (fun line raw gives => ?_) passes
    cases line <;> simp only [afterDeletion] at gives <;> (try split at gives) <;> cases gives
  have parsed : (entries.filterMap (afterDeletion going)).filterMap toOption =
      deletedLines conversation ids sender lines := by
    rw [filterMap_toOption passes, reads.readable.reads]
    rfl
  have stored : ∀ line ∈ deletedLines conversation ids sender lines, line.stored = line := by
    intro line mem
    obtain ⟨before, within, left⟩ := mem_filterMap.mp mem
    exact stored_of_afterDeletion (reads.readable.stored before within) left
  obtain ⟨rest, left⟩ := reads_writeHistoryLines reliable passing parsed stored log
  exact ⟨_, rest, deletes, left⟩

end Log

section Entries

variable {id : String}

theorem map_changeLast {change : α → α} {view : α → β}
    (keeps : ∀ item, view (change item) = view item) (items : List α) :
    (changeLast picks passes change items).map view = items.map view := by
  induction items with
  | nil => rfl
  | cons item items ih =>
    rw [changeLast]
    split
    · rw [map_cons, ih, map_cons]
    split
    · rw [map_cons, keeps, map_cons]
    · rfl

theorem map_id_applyUpdate
    (conversation : Conversation) (entries : List HistoryEntry) {update : HistoryLine}
    (kept : ∀ id sender, update ≠ .gone id sender) :
    (applyUpdate conversation entries update).map HistoryEntry.id =
      entries.map HistoryEntry.id := by
  cases update with
  | entry => rfl
  | receipt receipt named atMs | read named atMs =>
    rw [applyUpdate, map_map]
    refine map_congr_left fun entry _ => ?_
    simp only [Function.comp]
    split <;> rfl
  | text subject text | react subject sender =>
    refine map_changeLast (fun entry => ?_) entries
    rfl
  | edit subject text _ atMs sender =>
    refine map_changeLast (fun entry => ?_) entries
    split <;> rfl
  | gone subject sender => exact absurd rfl (kept subject sender)

def HoldsEntry (lines : List HistoryLine) (id : String) : Prop :=
  ∃ message, .entry message ∈ lines ∧ message.id = id

def NotGone (lines : List HistoryLine) (id : String) : Prop :=
  ∀ sender, .gone id sender ∉ lines

section

variable (held : HoldsEntry lines id)
include held

theorem mem_entriesOf (notGone : NotGone lines id) (conversation : Conversation) :
    id ∈ (entriesOf conversation lines).map HistoryEntry.id := by
  have through : ∀ (updates : List HistoryLine) (entries : List HistoryEntry),
      NotGone updates id → id ∈ entries.map HistoryEntry.id →
      id ∈ (updates.foldl (applyUpdate conversation) entries).map HistoryEntry.id := by
    intro updates
    induction updates with
    | nil => exact fun _ _ mem => mem
    | cons update updates ih =>
      intro entries others mem
      refine ih _ (fun sender later => others sender (by simp [later])) ?_
      by_cases removal : ∃ subject sender, update = .gone subject sender
      · obtain ⟨subject, sender, rfl⟩ := removal
        have apart : subject ≠ id := fun same => others sender (by simp [same])
        obtain ⟨entry, within, same⟩ := mem_map.mp mem
        refine mem_map.mpr ⟨entry, mem_filter.mpr ⟨within, ?_⟩, same⟩
        simp [same, Ne.symm apart]
      rw [map_id_applyUpdate conversation entries
        (fun subject sender same => removal ⟨subject, sender, same⟩)]
      exact mem
  obtain ⟨_, mem, rfl⟩ := held
  refine through _ _ (fun sender mem => notGone sender (mem_of_mem_filter mem)) ?_
  exact mem_map_of_mem (mem_filterMap.mpr ⟨_, mem, rfl⟩)

theorem HoldsEntry.append (added : List HistoryLine) : HoldsEntry (lines ++ added) id := by
  obtain ⟨message, mem, same⟩ := held
  exact ⟨message, mem_append_left _ mem, same⟩

theorem HoldsEntry.removedLines {ids : List String} (other : id ∉ ids) :
    HoldsEntry (removedLines ids lines) id := by
  obtain ⟨message, mem, same⟩ := held
  have unnamed : (ids.any fun removed => (HistoryLine.entry message).names removed) = false := by
    simp only [any_eq_false, HistoryLine.names, beq_iff_eq]
    exact fun removed listed equal => other (same ▸ equal ▸ listed)
  refine ⟨message, mem_append_left _ (mem_filterMap.mpr ⟨_, mem, ?_⟩), same⟩
  simp only [HistoryLine.withoutMessages, withoutMessages, unnamed, Bool.false_eq_true, if_false]
  rfl

theorem HoldsEntry.deletedLines (conversation : Conversation) (ids : List String)
    (sender : Option UserId) : HoldsEntry (deletedLines conversation ids sender lines) id := by
  obtain ⟨message, mem, same⟩ := held
  have left : ∃ after, (HistoryLine.entry message).afterDeletion
      (goingIds conversation ids sender lines) = some (.entry after) ∧ after.id = message.id := by
    simp only [HistoryLine.afterDeletion, afterDeletion]
    split
    · exact ⟨_, rfl, rfl⟩
    · exact ⟨_, rfl, rfl⟩
  obtain ⟨after, given, kept⟩ := left
  exact ⟨after, mem_filterMap.mpr ⟨_, mem, given⟩, kept.trans same⟩

end

theorem NotGone.snoc (notGone : NotGone lines id) (other : ∀ sender, line ≠ .gone id sender) :
    NotGone (lines ++ [line]) id := by
  intro sender within
  rcases mem_append.mp within with before | last
  · exact notGone sender before
  · exact other sender (mem_singleton.mp last).symm

theorem NotGone.removedLines {ids : List String} (notGone : NotGone lines id) (other : id ∉ ids) :
    NotGone (removedLines ids lines) id := by
  intro sender within
  rcases mem_append.mp within with kept | tombstone
  · obtain ⟨line, before, left⟩ := mem_filterMap.mp kept
    have unchanged : line = .gone id sender := by
      cases line <;> simp only [HistoryLine.withoutMessages, withoutMessages] at left <;>
        split at left <;> first | exact Option.some.inj left | cases left
    exact notGone sender (unchanged ▸ before)
  obtain ⟨_, listed, equal⟩ := mem_map.mp tombstone
  exact other ((HistoryLine.gone.inj equal).1 ▸ listed)

theorem NotGone.deletedLines (notGone : NotGone lines id)
    (conversation : Conversation) (ids : List String) (sender : Option UserId) :
    NotGone (deletedLines conversation ids sender lines) id := by
  intro who within
  obtain ⟨line, before, left⟩ := mem_filterMap.mp within
  have unchanged : line = .gone id who := by
    cases line <;> simp only [HistoryLine.afterDeletion, afterDeletion] at left <;>
      (try split at left) <;> first | exact Option.some.inj left | cases left
  exact notGone who (unchanged ▸ before)

end Entries

end Silver.Client
