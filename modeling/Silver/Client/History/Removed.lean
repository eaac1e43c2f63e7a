import Silver.Client.History.Recovery

/-!
# Removed messages

Removing messages rewrites a log without them and leaves a tombstone for each.
Every later change keeps the tombstones, and an entry is hidden by its tombstone
wherever the two stand, so no line written later brings a removed message back.
-/

namespace Silver.Client

open Foundation Protocol HistoryEntry List HistoryLine
open Except (toOption)

section Entries

variable {id : String}

def HistoryEntry.stays (ids : List String) (entry : HistoryEntry) : Bool :=
  !ids.contains entry.id

section

variable (chat : Conversation)

end

theorem gone_mem_removedLines (tombstone : .gone id none ∈ lines) (ids : List String) :
    .gone id none ∈ removedLines ids lines := by
  by_cases listed : id ∈ ids
  · exact mem_append_right _ (mem_map_of_mem listed)
  refine List.mem_append_left _ (List.mem_filterMap.mpr ⟨_, tombstone, ?_⟩)
  simp only [withoutMessages, Log.withoutMessages, names, ← List.contains_eq_any_beq]
  simp [listed, toOption]

end Entries

namespace Log

variable {next : Log Ciphertext} {text : Text}

/-- An appended line is the JSON of one. -/
def Writes (json : LineJson) : LogOperation → Prop
  | .appendHistoryLine text => ∃ line, text = json.toText line
  | _ => True

theorem apply_removeMessages (ids : List String) (log : Log Ciphertext) :
    apply cipher json name chat log (.removeMessages ids) =
      (rewritten cipher json name chat log (.removeMessages ids)).getD log := by
  simp only [apply, rewritten]
  cases held : log.file with
  | none => simp [removeMessages, held]
  | some file => cases removeMessages cipher json name chat ids log <;> rfl

theorem apply_markAllDeleted (ids : List String) (sender : Option UserId) (log : Log Ciphertext) :
    apply cipher json name chat log (.markAllDeleted ids sender) =
      (rewritten cipher json name chat log (.markAllDeleted ids sender)).getD log := by
  simp only [apply, rewritten, markAllDeleted]
  cases readHistoryLines cipher json name log with
  | error => rfl
  | ok lines =>
    by_cases going : (ids.filter fun id => deletionOf chat lines sender id = .applied) = []
    · have unreached := mt applied_mem_iff.mp (not_not.mpr going)
      simp [bind, Except.bind, going, toOption, unreached]
    have applied := applied_mem_iff.mpr going
    simp [bind, Except.bind, going, toOption, applied]

theorem Reads.step (reliable : ReliableFormat cipher json)
    (reads : log.Reads cipher json name text lines) (writes : Writes json act)
    (ran : Log.step cipher json name chat log act = some next) :
    ∃ rest after, next.Reads cipher json name rest after ∧
      ∀ id, .gone id none ∈ lines → .gone id none ∈ after := by
  unfold Log.step at ran
  dsimp only at ran
  split at ran
  · cases ran
    cases act with
    | appendHistoryLine =>
      obtain ⟨line, rfl⟩ := writes
      have held : log.file.getD ByteArray.empty = encodeUtf8 text := by
        rw [reads.held, Option.getD_some]
      exact ⟨_, _, reads_appendHistoryLine reliable reads.readable held line, fun id tombstone =>
        mem_append_left _ tombstone⟩
    | removeMessages ids =>
      obtain ⟨after, rest, rewrote, left⟩ := rewritten_removeMessages reliable reads chat ids
      rw [apply_removeMessages, rewrote]
      exact ⟨rest, _, left, fun id tombstone => gone_mem_removedLines tombstone ids⟩
    | markAllDeleted ids sender =>
      rw [apply_markAllDeleted]
      rcases rewritten_markAllDeleted reliable reads chat ids sender with
        ⟨unwritten, -⟩ | ⟨after, rest, rewrote, left⟩
      · rw [unwritten]
        exact ⟨text, lines, reads, fun _ tombstone => tombstone⟩
      rw [rewrote]
      exact ⟨rest, _, left, fun id tombstone => mem_filterMap.mpr ⟨_, tombstone, rfl⟩⟩
  · cases ran

end Log

/-- A log that holds the line of a message, and a copy of it where it was not written. -/
def Log.copied : Log (List UInt8 × Text) :=
  let line := LineCipher.transparent.encryptLineAt 0 "log" (some 0) ['e'] ++ ['\n']
  { file := some (encodeUtf8 (line ++ line)), recorded := none, drawn := 1, wrote := [] }

end Silver.Client
