import Silver.Client.History.Tampering

/-!
# What a log's own writes leave readable

A log written by this program alone holds sealed lines and, after a crash, lines
cut short.  A cut line opens nowhere, so it is passed over wherever a rewrite
puts it, and every whole line reads back as it was written.
-/

namespace Silver.Client

open Foundation Protocol LineCipher
open Except (toOption error)
open List hiding after count length

def HistoryLine.stored : HistoryLine → HistoryLine
  | .entry message => .entry { message with receipt := none }
  | other => other

@[simp] theorem HistoryLine.stored_stored (line : HistoryLine) :
    line.stored.stored = line.stored := by
  cases line <;> rfl

/-- What the format of a line is relied on for: the cipher, an armour of single
bytes, that nothing cut short opens, and that JSON reads back what it wrote. -/
structure ReliableFormat {Ciphertext : Type} (cipher : LineCipher Ciphertext) (json : LineJson) :
    Prop where
  ideal : cipher.Ideal
  ascii : ∀ ciphertext, ∀ character ∈ cipher.toBase64 ciphertext, character.utf8Size = 1
  cutShort : ∀ draw aad text shorter, shorter <+: cipher.toBase64 (cipher.encrypt draw aad text) →
    shorter ≠ cipher.toBase64 (cipher.encrypt draw aad text) →
    ∀ other, (cipher.fromBase64 (trim shorter)).bind (cipher.decrypt other) = none
  fromText_toText : ∀ line, json.fromText (json.toText line) = some line.stored
  notJson : ∀ text, text <+: LINE_PREFIX → text ≠ LINE_PREFIX → json.fromText text = none

section Lines

variable {cipher : LineCipher Ciphertext}

theorem parseLine_encryptLineAt
    (reliable : ReliableFormat cipher json) (draw offset : Nat) (line : HistoryLine) :
    Log.parseLine cipher json name
        (offset, cipher.encryptLineAt draw name (some offset) (json.toText line)) =
      .ok line.stored := by
  let written := (offset, json.toText line,
    cipher.encrypt draw (fileAad name (some offset)) (json.toText line))
  have opened : cipher.decrypt (fileAad name (some written.1)) written.2.2 = some written.2.1 :=
    reliable.ideal.decrypt_encrypt _ _ _
  have opens : cipher.decodeLine name offset
      (cipher.encryptLineAt draw name (some offset) (json.toText line)) = some (json.toText line) :=
    Log.decodeLine_lineText reliable.ideal opened
  simp [Log.parseLine, opens, reliable.fromText_toText]

def Unreadable (cipher : LineCipher Ciphertext) (json : LineJson) (name : String) (line : Text) :
    Prop :=
  ∀ offset, Log.parseLine cipher json name (offset, line) = .error line

theorem unreadable_of_cut (reliable : ReliableFormat cipher json)
    (short : count < (cipher.encryptLineAt draw name (some offset) text).length) :
    Unreadable cipher json name ((cipher.encryptLineAt draw name (some offset) text).take count) := by
  intro _
  let body := cipher.toBase64 (cipher.encrypt draw (fileAad name (some offset)) text)
  have whole : cipher.encryptLineAt draw name (some offset) text = LINE_PREFIX ++ body := rfl
  rw [whole] at short ⊢
  by_cases started : count < LINE_PREFIX.length
  · -- Less than the marker of a sealed line: read as it stands, and no JSON.
    have kept : (LINE_PREFIX ++ body).take count = LINE_PREFIX.take count :=
      take_append_of_le_length (by omega)
    have differs : LINE_PREFIX.take count ≠ LINE_PREFIX := by
      intro same
      have lengths := congrArg List.length same
      rw [length_take] at lengths
      omega
    have plain : LINE_PREFIX.isPrefixOf (LINE_PREFIX.take count) = false := by
      rw [Bool.eq_false_iff, ne_eq, isPrefixOf_iff_prefix]
      intro marked
      have lengths := marked.length_le
      rw [length_take] at lengths
      omega
    rw [kept, Log.parseLine]
    simp [decodeLine, plain, reliable.notJson _ ( take_prefix count _) differs]
  -- The marker and some of the armour: it does not open.
  obtain ⟨more, rfl⟩ := Nat.exists_eq_add_of_le (Nat.le_of_not_lt started)
  have kept : (LINE_PREFIX ++ body).take (LINE_PREFIX.length + more) =
      LINE_PREFIX ++ body.take more := take_length_add_append more
  have differs : body.take more ≠ body := by
    intro same
    have lengths := congrArg List.length same
    rw [length_take] at lengths
    rw [length_append] at short
    omega
  have marked : LINE_PREFIX.isPrefixOf (LINE_PREFIX ++ body.take more) = true :=
    isPrefixOf_iff_prefix.mpr (prefix_append _ _)
  have fails : ∀ other, cipher.decryptLineAt name other (LINE_PREFIX ++ body.take more) = none := by
    intro other
    simp only [decryptLineAt, marked, if_true, drop_left]
    exact reliable.cutShort _ _ _ _ ( take_prefix more _) differs _
  rw [kept, Log.parseLine]
  simp [decodeLine, marked, fails]

/-- A text in which every line reads back or is passed over everywhere, with
the lines it holds. -/
structure Readable (cipher : LineCipher Ciphertext) (json : LineJson) (name : String)
    (text : Text) (lines : List HistoryLine) : Prop where
  reads : ((linesWithOffsets text).map (Log.parseLine cipher json name)).filterMap toOption = lines
  passes : ∀ entry ∈ linesWithOffsets text, ∀ raw,
    Log.parseLine cipher json name entry = .error raw → Unreadable cipher json name entry.2
  stored : ∀ line ∈ lines, line.stored = line

theorem readable_nil : Readable cipher json name [] [] :=
  ⟨rfl, by simp [linesWithOffsets, splitLines, linesFrom], by simp⟩

section

variable (readable : Readable cipher json name text lines)
include readable

theorem Readable.newline : Readable cipher json name (text ++ ['\n']) lines := by
  refine ⟨?_, ?_, readable.stored⟩
  · rw [linesWithOffsets_append_newline]
    exact readable.reads
  rw [linesWithOffsets_append_newline]
  exact readable.passes

theorem Readable.append (ends : EndsLine text)
    (reads : ((linesFrom (byteSize text) (splitLines rest)).map
      (Log.parseLine cipher json name)).filterMap toOption = added)
    (passes : ∀ entry ∈ linesFrom (byteSize text) (splitLines rest), ∀ raw,
      Log.parseLine cipher json name entry = .error raw → Unreadable cipher json name entry.2)
    (stored : ∀ line ∈ added, line.stored = line) :
    Readable cipher json name (text ++ rest) (lines ++ added) := by
  refine ⟨?_, ?_, ?_⟩
  · rw [ends.linesWithOffsets_append, map_append, filterMap_append, readable.reads, reads]
  · rw [ends.linesWithOffsets_append]
    intro entry mem
    rcases mem_append.mp mem with before | after
    · exact readable.passes entry before
    · exact passes entry after
  intro line mem
  rcases mem_append.mp mem with before | after
  · exact readable.stored line before
  · exact stored line after

theorem Readable.append_line (ends : EndsLine text)
    (split : linesFrom (byteSize text) (splitLines rest) = [(byteSize text, line)])
    (parses : Log.parseLine cipher json name (byteSize text, line) = .ok parsed)
    (stored : parsed.stored = parsed) :
    Readable cipher json name (text ++ rest) (lines ++ [parsed]) := by
  refine readable.append ends ?_ ?_ (by simpa using stored)
  · rw [split, map_singleton, parses]
    rfl
  intro _ mem _ refused
  rw [split, mem_singleton] at mem
  rw [mem, parses] at refused
  cases refused

theorem Readable.append_unreadable (ends : EndsLine text)
    (split : ∀ entry ∈ linesFrom (byteSize text) (splitLines rest), entry.2 = line)
    (unreadable : Unreadable cipher json name line) :
    Readable cipher json name (text ++ rest) lines := by
  have none : ((linesFrom (byteSize text) (splitLines rest)).map
      (Log.parseLine cipher json name)).filterMap toOption = [] := by
    rw [filterMap_eq_nil_iff]
    intro _ mem
    obtain ⟨entry, within, rfl⟩ := mem_map.mp mem
    have fails : Log.parseLine cipher json name (entry.1, entry.2) = .error entry.2 := by
      rw [split entry within]
      exact unreadable entry.1
    rw [fails]
    rfl
  have appended := readable.append ends none
    (fun entry mem _ _ => (split entry mem).symm ▸ unreadable) (by simp)
  simpa using appended

end

theorem ascii_encryptLineAt
    (reliable : ReliableFormat cipher json) (draw offset : Nat) (text : Text) :
    ∀ character ∈ cipher.encryptLineAt draw name (some offset) text, character.utf8Size = 1 := by
  intro character mem
  rcases mem_append.mp mem with marker | body
  · simp only [LINE_PREFIX, mem_cons, not_mem_nil, or_false] at marker
    rcases marker with rfl | rfl | rfl | rfl <;> rfl
  · exact reliable.ascii _ character body

theorem newline_not_mem_encryptLineAt
    (reliable : ReliableFormat cipher json) (draw offset : Nat) (text : Text) :
    '\n' ∉ cipher.encryptLineAt draw name (some offset) text := by
  intro mem
  rcases mem_append.mp mem with marker | body
  · revert marker
    decide
  · exact absurd (reliable.ideal.solid _ _ body) (by decide)

theorem encryptLineAt_not_blank (draw offset : Nat) (text : Text) :
    (cipher.encryptLineAt draw name (some offset) text).all isWhitespace = false :=
  rfl

theorem Readable.append_take
    (reliable : ReliableFormat cipher json) (readable : Readable cipher json name text lines)
    (ends : EndsLine text) (draw : Nat) (line : HistoryLine) (count : Nat) :
    let appended := cipher.encryptLineAt draw name (some (byteSize text)) (json.toText line) ++ ['\n']
    ∃ kept, Readable cipher json name (text ++ appended.take count) kept ∧
      (kept = lines ++ [line.stored] ∨ kept = lines ∧ count < appended.length) := by
  intro appended
  let whole := cipher.encryptLineAt draw name (some (byteSize text)) (json.toText line)
  have single : '\n' ∉ whole := newline_not_mem_encryptLineAt reliable _ _ _
  have length : appended.length = whole.length + 1 := length_append
  by_cases short : count < whole.length
  · -- Cut before its end, it is passed over, or blank.
    have cut : appended.take count = whole.take count :=
      take_append_of_le_length (Nat.le_of_lt short)
    have one : splitLines (whole.take count) = [whole.take count] :=
      splitLines_of_not_mem fun mem => single (mem_of_mem_take mem)
    refine ⟨lines, ?_, .inr ⟨rfl, by omega⟩⟩
    rw [cut]
    refine readable.append_unreadable ends (fun entry mem => ?_) (unreadable_of_cut reliable short)
    rw [one] at mem
    exact mem_singleton.mp (mem_of_mem_linesFrom mem)
  have one : linesFrom (byteSize text) (splitLines whole) = [(byteSize text, whole)] := by
    rw [splitLines_of_not_mem single, linesFrom, encryptLineAt_not_blank]
    rfl
  have added := readable.append_line ends one (parseLine_encryptLineAt reliable _ _ _)
      (HistoryLine.stored_stored line)
  refine ⟨_, ?_, .inl rfl⟩
  rcases Nat.eq_or_lt_of_le (Nat.le_of_not_lt short) with same | _
  · rw [← same, take_left]
    exact added
  rw [take_of_length_le (by omega), ← append_assoc]
  exact added.newline

theorem Log.endsWithNewline_encodeUtf8 (text : Text) :
    Log.endsWithNewline (encodeUtf8 text) = true ↔ EndsLine text :=
  (endsLine_iff_back text).symm

def Log.appendedText (cipher : LineCipher Ciphertext) (name : String) (plain : Text)
    (log : Log Ciphertext) : Text :=
  let file := log.file.getD ByteArray.empty
  if Log.endsWithNewline file then
    cipher.encryptLineAt log.drawn name (some file.size) plain ++ ['\n']
  else '\n' :: (cipher.encryptLineAt log.drawn name (some (file.size + 1)) plain ++ ['\n'])

theorem Log.file_appendHistoryLine (plain : Text) (log : Log Ciphertext) :
    (Log.appendHistoryLine cipher name plain log).file = some (log.file.getD ByteArray.empty ++
        encodeUtf8 (Log.appendedText cipher name plain log)) := by
  cases ended : Log.endsWithNewline (log.file.getD ByteArray.empty) <;>
    simp [Log.appendHistoryLine, Log.appendedText, Log.noteHistoryWrite, Log.sealLine, ended]

theorem Log.ascii_appendedText
    (reliable : ReliableFormat cipher json) (plain : Text) (log : Log Ciphertext) :
    ∀ character ∈ Log.appendedText cipher name plain log, character.utf8Size = 1 := by
  have newline : Char.utf8Size '\n' = 1 := rfl
  have whole : ∀ offset, ∀ character ∈
      cipher.encryptLineAt log.drawn name (some offset) plain ++ ['\n'], character.utf8Size = 1 := by
    intro offset character mem
    rcases mem_append.mp mem with line | last
    · exact ascii_encryptLineAt reliable _ _ _ character line
    · rw [mem_singleton.mp last, newline]
  intro character mem
  simp only [Log.appendedText] at mem
  split at mem
  · exact whole _ character mem
  rcases mem_cons.mp mem with rfl | later
  · exact newline
  · exact whole _ character later

theorem Readable.appendedText {log : Log Ciphertext} (reliable : ReliableFormat cipher json)
    (readable : Readable cipher json name text lines)
    (held : log.file.getD ByteArray.empty = encodeUtf8 text) (line : HistoryLine) (count : Nat) :
    let appended := Log.appendedText cipher name (json.toText line) log
    ∃ kept, Readable cipher json name (text ++ appended.take count) kept ∧
      (kept = lines ++ [line.stored] ∨ kept = lines ∧ count < appended.length) := by
  simp only [Log.appendedText, held, size_encodeUtf8]
  by_cases ended : EndsLine text
  · rw [if_pos ((Log.endsWithNewline_encodeUtf8 text).mpr ended)]
    exact readable.append_take reliable ended log.drawn line count
  rw [if_neg (mt (Log.endsWithNewline_encodeUtf8 text).mp ended)]
  -- The newline that starts a fresh line comes first.
  cases count with
  | zero =>
    refine ⟨lines, ?_, .inr ⟨rfl, by simp⟩⟩
    rw [take_zero, append_nil]
    exact readable
  | succ count =>
    have size : byteSize (text ++ ['\n']) = byteSize text + 1 := by
      rw [byteSize_append]
      rfl
    obtain ⟨kept, reads, either⟩ :=
      readable.newline.append_take reliable (.inr ⟨text, rfl⟩) log.drawn line count
    rw [size] at reads either
    refine ⟨kept, ?_, either.imp_right fun cut => ⟨cut.1, ?_⟩⟩
    · rwa [take_succ_cons, append_cons]
    rw [length_cons]
    omega

def Passing (cipher : LineCipher Ciphertext) (json : LineJson) (name : String)
    (lines : List (Except Text HistoryLine)) : Prop :=
  ∀ raw, error raw ∈ lines → Unreadable cipher json name raw ∧ '\n' ∉ raw

theorem Readable.passing (readable : Readable cipher json name text lines) :
    Passing cipher json name ((linesWithOffsets text).map (Log.parseLine cipher json name)) := by
  intro raw mem
  obtain ⟨entry, within, refused⟩ := mem_map.mp mem
  have unread := readable.passes entry within raw refused
  have same : entry.2 = raw := Except.error.inj ((unread entry.1).symm.trans refused)
  exact ⟨same ▸ unread, newline_not_mem_of_mem_splitLines (same ▸ mem_of_mem_linesFrom within)⟩

theorem Passing.filterMap {change : Except Text HistoryLine → Option (Except Text HistoryLine)}
    (passing : Passing cipher json name entries)
    (parses : ∀ line raw, change (.ok line) ≠ some (.error raw))
    (passes : ∀ raw, change (.error raw) = some (.error raw)) :
    Passing cipher json name (entries.filterMap change) := by
  intro raw mem
  obtain ⟨entry, within, gives⟩ := mem_filterMap.mp mem
  cases entry with
  | ok line => exact absurd gives (parses line raw)
  | error other =>
    obtain rfl := Except.error.inj (Option.some.inj ((passes other).symm.trans gives))
    exact passing _ within

theorem readable_foldl_writeLine (reliable : ReliableFormat cipher json)
    (passing : Passing cipher json name entries)
    {written : Text × Log Ciphertext}
    (readable : Readable cipher json name written.1 lines) (ends : EndsLine written.1) :
    Readable cipher json name (entries.foldl (Log.writeLine cipher json name) written).1
      (lines ++ (entries.filterMap toOption).map HistoryLine.stored) := by
  induction entries generalizing written lines with
  | nil => simpa using readable
  | cons entry entries ih =>
    have others : Passing cipher json name entries :=
      fun raw mem => passing raw (.tail _ mem)
    cases entry with
    | ok parsed =>
      obtain ⟨_, reads, whole | ⟨-, cut⟩⟩ :=
        readable.append_take reliable ends written.2.drawn parsed
          (cipher.encryptLineAt written.2.drawn name (some (byteSize written.1))
            (json.toText parsed) ++ ['\n']).length
      · rw [take_length, whole] at reads
        have step : (Log.writeLine cipher json name written (.ok parsed)).1 = written.1 ++
            (cipher.encryptLineAt written.2.drawn name (some (byteSize written.1))
              (json.toText parsed) ++ ['\n']) := append_assoc _ _ _
        have after := ih others (step ▸ reads) (.inr ⟨_, rfl⟩)
        simpa [toOption] using after
      · exact absurd cut (Nat.lt_irrefl _)
    | error raw =>
      obtain ⟨unread, single⟩ := passing raw (.head _)
      have reads : Readable cipher json name (written.1 ++ raw) lines := by
        refine readable.append_unreadable ends (fun entry mem => ?_) unread
        rw [splitLines_of_not_mem single] at mem
        exact mem_singleton.mp (mem_of_mem_linesFrom mem)
      have step : Readable cipher json name
          (Log.writeLine cipher json name written (.error raw)).1 lines := reads.newline
      have after := ih others step (.inr ⟨_, rfl⟩)
      exact after

end Lines

end Silver.Client
