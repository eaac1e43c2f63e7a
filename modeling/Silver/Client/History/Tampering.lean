import Silver.Client.History.Log

/-!
# Somebody else's file in place of a log

A line opens only where it was sealed, so of a file put in place of a log the
lines the program wrote there itself are read, each where it was written, and
what does not open is left out.  A file shorter than the record is refused.
-/

namespace Silver.Client

open Foundation List Option LineCipher

/-- What the cipher and the armour of its output are relied on for. -/
structure LineCipher.Ideal {Ciphertext : Type} (cipher : LineCipher Ciphertext) : Prop where
  decrypt_encrypt : ∀ draw aad text, cipher.decrypt aad (cipher.encrypt draw aad text) = some text
  fromBase64_toBase64 : ∀ ciphertext, cipher.fromBase64 (cipher.toBase64 ciphertext) = some ciphertext
  solid : ∀ ciphertext, ∀ character ∈ cipher.toBase64 ciphertext, isWhitespace character = false

theorem fileAad_injective
    {name : String} {left : Nat} (leftFits : left < MAX_FILE) (rightFits : right < MAX_FILE)
    (same : fileAad name (some left) = fileAad name (some right)) :
    left = right := by
  have tails := append_cancel_left same
  exact beBytes_injective leftFits rightFits (cons.inj tails).2

theorem fileAad_none_ne_some (name : String) (offset : Nat) :
    fileAad name none ≠ fileAad name (some offset) := by
  intro same
  have lengths := congrArg length same
  simp [fileAad] at lengths

section Reading

variable (cipher : LineCipher Ciphertext) (name : String)

def openLines (text : Text) : List (Nat × Text) :=
  (linesWithOffsets text).filterMap fun entry =>
    (cipher.decodeLine name entry.1 entry.2).map fun plain => (entry.1, plain)

variable {cipher json name}

theorem mem_openLines {text plain : Text} :
    (offset, plain) ∈ openLines cipher name text ↔ ∃ line, (offset, line) ∈ linesWithOffsets text ∧
        cipher.decodeLine name offset line = some plain := by
  simp only [openLines, mem_filterMap, map_eq_some_iff, Prod.mk.injEq, Prod.exists]
  constructor
  · rintro ⟨_, line, mem, _, decoded, rfl, rfl⟩
    exact ⟨line, mem, decoded⟩
  rintro ⟨line, mem, decoded⟩
  exact ⟨offset, line, mem, plain, decoded, rfl, rfl⟩

theorem pairwise_openLines (text : Text) :
    (openLines cipher name text).Pairwise fun first second => first.1 < second.1 := by
  refine (pairwise_linesFrom 0 (splitLines text)).filterMap _ ?_
  intro first second increasing _ fromFirst _ fromSecond
  obtain ⟨_, -, rfl⟩ := map_eq_some_iff.mp fromFirst
  obtain ⟨_, -, rfl⟩ := map_eq_some_iff.mp fromSecond
  exact increasing

theorem filterMap_parseLine (entries : List (Nat × Text)) :
    (entries.map (Log.parseLine cipher json name)).filterMap Except.toOption =
      (entries.filterMap fun entry =>
        (cipher.decodeLine name entry.1 entry.2).map fun plain => (entry.1, plain)).filterMap
        fun opened => json.fromText opened.2 := by
  induction entries with
  | nil => rfl
  | cons entry entries ih =>
    rw [map_cons, filterMap_cons, ih]
    cases decoded : cipher.decodeLine name entry.1 entry.2 with
    | none => simp [Log.parseLine, decoded, Except.toOption]
    | some plain =>
      cases parsed : json.fromText plain <;>
        simp [Log.parseLine, decoded, parsed, Except.toOption]

theorem loadHistory_of_readText
    {chat : Conversation} {log : Log Ciphertext} {file : ByteArray} {text : Text}
    (held : log.file = some file) (read : Log.readText name file log.recorded = .ok text) :
    Log.loadHistory cipher json name chat log = .ok (entriesOf chat
        ((openLines cipher name text).filterMap fun line => json.fromText line.2)) := by
  simp only [Log.loadHistory, Log.readHistoryLines, held, read, Except.map, filterMap_parseLine,
    openLines]

theorem readText_cases (file : ByteArray) (recorded : Option Nat) :
    (∃ error, Log.readText name file recorded = .error error) ∨
      ∃ text, decodeUtf8 file = some text ∧ Log.readText name file recorded = .ok text := by
  cases decoded : decodeUtf8 file with
  | none => exact .inl ⟨_, by simp only [Log.readText, decoded]; rfl⟩
  | some text =>
    cases recorded with
    | none => exact .inr ⟨text, rfl, by simp [Log.readText, decoded]⟩
    | some length =>
      by_cases short : file.size < length
      · exact .inl ⟨.shorter name file.size length, by simp [Log.readText, decoded, short]⟩
      · exact .inr ⟨text, rfl, by simp [Log.readText, decoded, short]⟩

end Reading

namespace Log

variable {cipher : LineCipher Ciphertext}
variable {log : Log Ciphertext}

/-- A log as its own writes leave it: recorded at its length, in UTF-8, and with
every line sealed at an offset a length can say. -/
structure Kept (log : Log Ciphertext) : Prop where
  recorded : log.recorded = log.file.map ByteArray.size
  encoded : ∀ file, log.file = some file -> ∃ text, file = encodeUtf8 text
  fits : ∀ line ∈ log.wrote, line.1 < MAX_FILE

theorem kept_empty : (empty : Log Ciphertext).Kept :=
  ⟨rfl, by simp [empty], by simp [empty]⟩

theorem wrote_foldl_writeLine
    (lines : List (Except Text HistoryLine)) (written : Text × Log Ciphertext) :
    byteSize written.1 <= byteSize (lines.foldl (writeLine cipher json name) written).1 ∧
      ∀ line ∈ (lines.foldl (writeLine cipher json name) written).2.wrote, line ∈ written.2.wrote ∨
          line.1 <= byteSize (lines.foldl (writeLine cipher json name) written).1 := by
  induction lines generalizing written with
  | nil => exact ⟨Nat.le_refl _, fun line mem => .inl mem⟩
  | cons head lines ih =>
    obtain ⟨longer, later⟩ := ih (writeLine cipher json name written head)
    have grows : byteSize written.1 <= byteSize (writeLine cipher json name written head).1 := by
      cases head <;> simp only [writeLine, byteSize_append] <;> omega
    refine ⟨grows.trans longer, fun line mem => ?_⟩
    rcases later line mem with here | within
    · cases head with
      | error => exact .inl here
      | ok =>
        rcases mem_append.mp here with before | last
        · exact .inl before
        rw [mem_singleton.mp last]
        exact .inr (grows.trans longer)
    · exact .inr within

theorem Kept.writeHistoryLines {lines : List (Except Text HistoryLine)} (kept : log.Kept)
    (fits : ((writeHistoryLines cipher json name lines log).file.all
      fun file => file.size < MAX_FILE) = true) :
    (writeHistoryLines cipher json name lines log).Kept := by
  refine ⟨rfl, fun file held => ⟨_, (some.inj held).symm⟩, fun line mem => ?_⟩
  rcases (wrote_foldl_writeLine lines ([], log)).2 line mem with before | _
  · exact kept.fits line before
  have small := of_decide_eq_true fits
  rw [size_encodeUtf8] at small
  omega

theorem Kept.appendHistoryLine {text : Text} (kept : log.Kept)
    (fits : ((appendHistoryLine cipher name text log).file.all
      fun file => file.size < MAX_FILE) = true) :
    (appendHistoryLine cipher name text log).Kept := by
  refine ⟨rfl, fun file held => ?_, fun line mem => ?_⟩
  · have same := some.inj held
    obtain ⟨before, encoded⟩ : ∃ before, log.file.getD ByteArray.empty = encodeUtf8 before := by
      cases present : log.file with
      | none => exact ⟨[], by simp [encodeUtf8]⟩
      | some file => exact kept.encoded file present
    rw [encoded, ← encodeUtf8_append] at same
    exact ⟨_, same.symm⟩
  rcases mem_append.mp mem with before | last
  · exact kept.fits line before
  have small := of_decide_eq_true (p := _ < MAX_FILE) fits
  rw [mem_singleton.mp last]
  cases ends : endsWithNewline (log.file.getD ByteArray.empty) <;>
    simp [ends, size_encodeUtf8] at small ⊢
  · have one : Char.utf8Size '\n' = 1 := rfl
    omega
  · omega

theorem apply_cases (log : Log Ciphertext) (act : LogOperation) :
    (∃ text, act = .appendHistoryLine text ∧
        apply cipher json name chat log act = appendHistoryLine cipher name text log) ∨
      apply cipher json name chat log act = log ∨
      ∃ lines, apply cipher json name chat log act =
        writeHistoryLines cipher json name lines log := by
  cases act with
  | appendHistoryLine text => exact .inl ⟨text, rfl, rfl⟩
  | removeMessages ids =>
    refine .inr ?_
    cases held : log.file with
    | none => exact .inl (by simp [apply, removeMessages, held])
    | some file =>
      cases loaded : loadHistory cipher json name chat log with
      | error problem => exact .inl (by simp only [apply, removeMessages, held, loaded]; rfl)
      | ok =>
        cases read : readHistoryLines cipher json name log with
        | error problem =>
          exact .inl (by simp only [apply, removeMessages, held, loaded, read]; rfl)
        | ok lines => exact .inr ⟨_, by simp only [apply, removeMessages, held, loaded, read]; rfl⟩
  | markAllDeleted ids sender =>
    refine .inr ?_
    cases read : readHistoryLines cipher json name log with
    | error problem => exact .inl (by simp only [apply, markAllDeleted, read]; rfl)
    | ok lines =>
      cases going : (ids.filter fun id =>
        decide (deletionOf chat lines sender id = .applied)).isEmpty with
      | true => exact .inl (by simp [apply, markAllDeleted, read, going, bind, Except.bind])
      | false =>
        exact .inr ⟨_, by simp [apply, markAllDeleted, read, going, bind, Except.bind]; rfl⟩

theorem Kept.step {next : Log Ciphertext} (kept : log.Kept)
    (ran : Log.step cipher json name chat log act = some next) :
    next.Kept := by
  unfold Log.step at ran
  dsimp only at ran
  split at ran
  · rename_i fits
    cases ran
    rcases apply_cases log act with ⟨_, rfl, same⟩ | same | ⟨_, same⟩
    · rw [same] at fits ⊢
      exact kept.appendHistoryLine fits
    · rw [same]
      exact kept
    rw [same] at fits ⊢
    exact kept.writeHistoryLines fits
  · cases ran

def lineText (cipher : LineCipher Ciphertext) (line : Nat × Text × Ciphertext) : Text :=
  LINE_PREFIX ++ cipher.toBase64 line.2.2

theorem newline_not_mem_lineText (ideal : cipher.Ideal) (line : Nat × Text × Ciphertext) :
    '\n' ∉ lineText cipher line := by
  intro mem
  rcases mem_append.mp mem with within | within
  · exact absurd within (by decide)
  · exact absurd (ideal.solid _ _ within) (by decide)

theorem lineText_not_blank (line : Nat × Text × Ciphertext) :
    (lineText cipher line).all isWhitespace = false :=
  rfl

theorem decodeLine_lineText (ideal : cipher.Ideal)
    (opens : cipher.decrypt (fileAad name (some line.1)) line.2.2 = some line.2.1) :
    cipher.decodeLine name line.1 (lineText cipher line) = some line.2.1 := by
  have sealedLine : LINE_PREFIX.isPrefixOf (lineText cipher line) = true := rfl
  have body : (lineText cipher line).drop LINE_PREFIX.length = cipher.toBase64 line.2.2 := rfl
  simp [decodeLine, decryptLineAt, sealedLine, body, trim_eq_self (ideal.solid _),
    ideal.fromBase64_toBase64, opens]

/-- A log that has only been appended to: its lines in the order they were
written, each where it was sealed. -/
structure Appended (cipher : LineCipher Ciphertext) (name : String) (log : Log Ciphertext) : Prop where
  file : log.file.getD ByteArray.empty =
    encodeUtf8 ((log.wrote.map (lineText cipher)).flatMap (· ++ ['\n']))
  placed : linesFrom 0 (log.wrote.map (lineText cipher)) =
    log.wrote.map fun line => (line.1, lineText cipher line)
  opens : ∀ line ∈ log.wrote, cipher.decrypt (fileAad name (some line.1)) line.2.2 = some line.2.1

theorem appended_empty : (empty : Log Ciphertext).Appended cipher name :=
  ⟨by simp [empty, encodeUtf8], rfl, by simp [empty]⟩

theorem endsWithNewline_lines (lines : List Text) :
    endsWithNewline (encodeUtf8 (lines.flatMap (· ++ ['\n']))) = true := by
  induction lines using reverseRecOn with
  | nil => simp [endsWithNewline, encodeUtf8]
  | append_singleton lines =>
    have last : encodeUtf8 ['\n'] = ⟨#[10]⟩ := by
      simp [encodeUtf8]
      rfl
    rw [flatMap_append, flatMap_singleton, ← append_assoc, encodeUtf8_append, last]
    simp [endsWithNewline]

theorem Appended.appendHistoryLine
    {text : Text} (ideal : cipher.Ideal) (appended : log.Appended cipher name) :
    (appendHistoryLine cipher name text log).Appended cipher name := by
  have ends : endsWithNewline (log.file.getD ByteArray.empty) = true := by
    rw [appended.file]
    exact endsWithNewline_lines _
  have offset : (log.file.getD ByteArray.empty).size =
      linesSize (log.wrote.map (lineText cipher)) := by
    rw [appended.file, size_encodeUtf8, byteSize_flatMap]
  let line :=
    ((log.file.getD ByteArray.empty).size, text,
      cipher.encrypt log.drawn (fileAad name (some (log.file.getD ByteArray.empty).size)) text)
  have wrote : (Log.appendHistoryLine cipher name text log).wrote = log.wrote ++ [line] := by
    simp only [Log.appendHistoryLine, ends, Bool.not_true, Bool.false_eq_true, if_false]
    rfl
  have file : (Log.appendHistoryLine cipher name text log).file.getD ByteArray.empty =
      log.file.getD ByteArray.empty ++ encodeUtf8 (lineText cipher line ++ ['\n']) := by
    simp only [Log.appendHistoryLine, ends, Bool.not_true, Bool.false_eq_true, if_false]
    rfl
  refine ⟨?_, ?_, ?_⟩
  · rw [file, wrote, appended.file, ← encodeUtf8_append, map_append, flatMap_append,
      map_singleton, flatMap_singleton]
  · have last : linesFrom (linesSize (log.wrote.map (lineText cipher))) [lineText cipher line] =
        [(line.1, lineText cipher line)] := by
      rw [linesFrom, lineText_not_blank, if_neg Bool.false_ne_true, linesFrom, ← offset]
    rw [wrote, map_append, linesFrom_append, appended.placed, Nat.zero_add, map_append]
    exact congrArg _ last
  rw [wrote]
  intro written mem
  rcases mem_append.mp mem with before | added
  · exact appended.opens written before
  rw [mem_singleton.mp added]
  exact ideal.decrypt_encrypt _ _ _

theorem Appended.openLines (ideal : cipher.Ideal) (appended : log.Appended cipher name) :
    Client.openLines cipher name ((log.wrote.map (lineText cipher)).flatMap (· ++ ['\n'])) =
      log.wrote.map fun line => (line.1, line.2.1) := by
  have whole : ∀ line ∈ log.wrote.map (lineText cipher), '\n' ∉ line := by
    intro line mem
    obtain ⟨written, -, rfl⟩ := mem_map.mp mem
    exact newline_not_mem_lineText ideal written
  have placed : linesWithOffsets ((log.wrote.map (lineText cipher)).flatMap (· ++ ['\n'])) =
      log.wrote.map fun line => (line.1, lineText cipher line) := by
    rw [linesWithOffsets, splitLines_flatMap whole, linesFrom_append, appended.placed]
    exact append_nil _
  rw [Client.openLines, placed, filterMap_map, ← filterMap_eq_map]
  refine filterMap_congr fun line mem => ?_
  simp [decodeLine_lineText ideal (appended.opens line mem)]

end Log

def LogOperation.Appends : LogOperation -> Prop
  | .appendHistoryLine _ => True
  | .removeMessages _ | .markAllDeleted _ _ => False

section Tampering

variable {cipher : LineCipher Ciphertext} {json : LineJson} {name : String}
variable {log : Log Ciphertext} {file : ByteArray}

theorem kept_of_run (ideal : cipher.Ideal)
    (ended : run (Log.step cipher json name chat) Log.empty operations = some log) :
    log.Kept ∧ ((∀ act ∈ operations, act.Appends) -> log.Appended cipher name) := by
  let relates : List LogOperation -> Log Ciphertext -> Prop := fun before log =>
    log.Kept ∧ ((∀ act ∈ before, act.Appends) -> log.Appended cipher name)
  have start : relates [] Log.empty := ⟨Log.kept_empty, fun _ => Log.appended_empty⟩
  refine run_relates start ?_ ended
  rintro before act log _ ⟨kept, appended⟩ ran
  refine ⟨kept.step ran, fun only => ?_⟩
  have earlier := appended fun other mem => only other (by simp [mem])
  have last := only act (by simp)
  cases act with
  | appendHistoryLine =>
    simp only [Log.step] at ran
    split at ran
    · cases ran
      exact earlier.appendHistoryLine ideal
    · cases ran
  | removeMessages ids | markAllDeleted ids => exact last.elim

def Log.text (log : Log Ciphertext) : Text :=
  (log.file.bind decodeUtf8).getD []

def LooksSealed (file : ByteArray) : Prop :=
  ∀ text, decodeUtf8 file = some text -> ∀ entry ∈ linesWithOffsets text,
    LINE_PREFIX.isPrefixOf entry.2 = true

def Unforged (cipher : LineCipher Ciphertext) (name : String) (log : Log Ciphertext)
    (elsewhere : List (List UInt8 × Text × Ciphertext)) (file : ByteArray) : Prop :=
  ∀ text, decodeUtf8 file = some text -> ∀ entry ∈ linesWithOffsets text, ∀ ciphertext,
    cipher.fromBase64 (trim (entry.2.drop LINE_PREFIX.length)) = some ciphertext ->
    ∀ aad plain, cipher.decrypt aad ciphertext = some plain -> (aad, plain, ciphertext) ∈
        log.wrote.map (fun line => (fileAad name (some line.1), line.2)) ++ elsewhere

/-- How the lines read from a file answer to those of the log it replaces. -/
structure Accounted (cipher : LineCipher Ciphertext) (name : String)
    (operations : List LogOperation) (log : Log Ciphertext) (text : Text)
    (kept : List (Nat × Text)) : Prop where
  ordered : kept.Pairwise fun first second => first.1 < second.1
  written : ∀ line ∈ kept, ∃ ciphertext, (line.1, line.2, ciphertext) ∈ log.wrote
  standing : ∀ entry ∈ linesWithOffsets log.text, entry ∈ linesWithOffsets text ->
    ∀ plain, cipher.decodeLine name entry.1 entry.2 = some plain -> (entry.1, plain) ∈ kept
  appended : (∀ operation ∈ operations, operation.Appends) ->
    kept.Sublist (openLines cipher name log.text)

theorem Unforged.written {text plain : Text}
    (kept : log.Kept) (apart : ∀ other ∈ elsewhere, ∀ place, other.1 ≠ fileAad name place)
    (unforged : Unforged cipher name log elsewhere file) (looksSealed : LooksSealed file)
    (fits : file.size < MAX_FILE) (decoded : decodeUtf8 file = some text)
    (stands : (offset, line) ∈ linesWithOffsets text)
    (opened : cipher.decodeLine name offset line = some plain) :
    ∃ ciphertext, (offset, plain, ciphertext) ∈ log.wrote := by
  have sealedLine : LINE_PREFIX.isPrefixOf line = true := looksSealed text decoded _ stands
  -- Whatever the line is bound to, it was sealed for the log at an offset.
  have places : ∀ place, cipher.decryptLineAt name place line = some plain ->
      ∃ sealedAt ciphertext, (sealedAt, plain, ciphertext) ∈ log.wrote ∧
        fileAad name (some sealedAt) = fileAad name place := by
    intro place decrypted
    simp only [decryptLineAt, sealedLine, if_true] at decrypted
    obtain ⟨ciphertext, armoured, decrypts⟩ := bind_eq_some_iff.mp decrypted
    rcases mem_append.mp
      (unforged text decoded _ stands ciphertext armoured _ plain decrypts) with own | other
    · obtain ⟨⟨sealedAt, _⟩, wrote, same⟩ := mem_map.mp own
      simp only [Prod.mk.injEq] at same
      obtain ⟨bound, rfl⟩ := same
      exact ⟨sealedAt, ciphertext, wrote, bound⟩
    · exact absurd rfl (apart _ other place)
  simp only [decodeLine, sealedLine, if_true] at opened
  rcases or_eq_some_iff.mp opened with here | ⟨-, anywhere⟩
  · obtain ⟨sealedAt, ciphertext, wrote, bound⟩ := places _ here
    have size : byteSize text = file.size := by
      rw [← size_encodeUtf8, encodeUtf8_of_decodeUtf8 decoded]
    have within := linesWithOffsets_within stands
    have same := fileAad_injective (kept.fits _ wrote) (show offset < MAX_FILE by omega) bound
    exact ⟨ciphertext, same ▸ wrote⟩
  obtain ⟨sealedAt, ciphertext, wrote, bound⟩ := places _ anywhere
  exact absurd bound.symm (fileAad_none_ne_some name sealedAt)

theorem Log.Kept.readText (kept : log.Kept) (held : log.file = some file) :
    Log.readText name file log.recorded = .ok log.text := by
  obtain ⟨text, rfl⟩ := kept.encoded file held
  have own : log.text = text := by
    rw [Log.text, held, bind_some, decodeUtf8_encodeUtf8, getD_some]
  rw [Log.readText, decodeUtf8_encodeUtf8, kept.recorded, held, own]
  simp

theorem Log.Appended.text (appended : log.Appended cipher name) :
    log.text = (log.wrote.map (Log.lineText cipher)).flatMap (· ++ ['\n']) := by
  have file := appended.file
  cases held : log.file with
  | none =>
    rw [held, getD_none] at file
    have empty : encodeUtf8 [] = ByteArray.empty := by simp [encodeUtf8]
    rw [← empty] at file
    have same := congrArg decodeUtf8 file
    rw [decodeUtf8_encodeUtf8, decodeUtf8_encodeUtf8] at same
    rw [Log.text, held, ← some.inj same]
    rfl
  | some =>
    rw [held, getD_some] at file
    rw [Log.text, held, bind_some, file, decodeUtf8_encodeUtf8, getD_some]

theorem accounted_of_run {text : Text} (ideal : cipher.Ideal)
    (ended : run (Log.step cipher json name chat) Log.empty operations = some log)
    (apart : ∀ other ∈ elsewhere, ∀ place, other.1 ≠ fileAad name place)
    (fits : file.size < MAX_FILE) (looksSealed : LooksSealed file)
    (unforged : Unforged cipher name log elsewhere file) (decoded : decodeUtf8 file = some text) :
    Accounted cipher name operations log text (openLines cipher name text) := by
  obtain ⟨kept, appends⟩ := kept_of_run ideal ended
  have written : ∀ line ∈ openLines cipher name text,
      ∃ ciphertext, (line.1, line.2, ciphertext) ∈ log.wrote := by
    rintro ⟨offset, plain⟩ mem
    obtain ⟨line, stands, opened⟩ := mem_openLines.mp mem
    exact unforged.written kept apart looksSealed fits decoded stands opened
  refine ⟨pairwise_openLines text, written, ?_, fun only => ?_⟩
  · exact fun entry _ stands plain opened => mem_openLines.mpr ⟨entry.2, stands, opened⟩
  have appended := appends only
  refine sublist_of_increasing (pairwise_openLines text) (pairwise_openLines log.text) ?_
  rintro ⟨offset, plain⟩ mem
  obtain ⟨ciphertext, wrote⟩ := written _ mem
  rw [appended.text, appended.openLines ideal]
  exact mem_map.mpr ⟨_, wrote, rfl⟩

/-- Whatever file whose lines look sealed is put in place of a log that only its
own writes have touched, loading fails, as it does if the file is shorter, or
takes lines that answer to the log's. -/
theorem loadHistory_accounts {operations : List LogOperation} {log : Log Ciphertext}
    {elsewhere : List (List UInt8 × Text × Ciphertext)} {file : ByteArray} (ideal : cipher.Ideal)
    (ended : run (Log.step cipher json name conversation) Log.empty operations = some log)
    (apart : ∀ other ∈ elsewhere, ∀ place, other.1 ≠ fileAad name place)
    (fits : file.size < MAX_FILE) (looksSealed : LooksSealed file)
    (unforged : Unforged cipher name log elsewhere file) :
    Log.loadHistory cipher json name conversation log = .ok (entriesOf conversation
          ((openLines cipher name log.text).filterMap fun line => json.fromText line.2)) ∧
      (file.size < log.file.elim 0 ByteArray.size →
        ∃ error, Log.loadHistory cipher json name conversation { log with file := some file } =
          .error error) ∧
      ((∃ error, Log.loadHistory cipher json name conversation { log with file := some file } =
          .error error) ∨
        ∃ text kept, decodeUtf8 file = some text ∧ Accounted cipher name operations log text kept ∧
          Log.loadHistory cipher json name conversation { log with file := some file } =
            .ok (entriesOf conversation (kept.filterMap fun line => json.fromText line.2))) := by
  obtain ⟨kept, -⟩ := kept_of_run ideal ended
  have fails : ∀ error, Log.readText name file log.recorded = .error error ->
      ∃ error, Log.loadHistory cipher json name conversation { log with file := some file } =
        .error error :=
    fun error refused => ⟨error, by
      simp [Log.loadHistory, Log.readHistoryLines, refused, Except.map]⟩
  refine ⟨?_, fun shorter => ?_, ?_⟩
  · cases held : log.file with
    | none =>
      have nothing : log.text = [] := by
        rw [Log.text, held]
        rfl
      simp only [Log.loadHistory, Log.readHistoryLines, held, nothing]
      rfl
    | some own => exact loadHistory_of_readText held (kept.readText held)
  · cases held : log.file with
    | none =>
      rw [held] at shorter
      exact absurd shorter (Nat.not_lt_zero _)
    | some own =>
      rw [held] at shorter
      have recorded : log.recorded = some own.size := by rw [kept.recorded, held]; rfl
      rcases readText_cases file log.recorded with ⟨error, refused⟩ | ⟨text, decoded, read⟩
      · exact fails error refused
      have short : file.size < own.size := shorter
      rw [recorded, Log.readText, decoded] at read
      simp [short] at read
  rcases readText_cases file log.recorded with ⟨error, refused⟩ | ⟨text, decoded, read⟩
  · exact .inl (fails error refused)
  exact .inr ⟨text, _, decoded,
    accounted_of_run ideal ended apart fits looksSealed unforged decoded,
    loadHistory_of_readText rfl read⟩

end Tampering

def tally (count : Nat) : Text :=
  List.replicate count 'a' ++ ['b']

def readTallies : Nat -> Text -> Option (List Nat)
  | 0, [] => some []
  | _ + 1, [] => none
  | count, character :: rest =>
    if character = 'a' then readTallies (count + 1) rest
    else if character = 'b' then (readTallies 0 rest).map (count :: ·)
    else none

theorem readTallies_tally (before count : Nat) (rest : Text) :
    readTallies before (tally count ++ rest) = (readTallies 0 rest).map ((before + count) :: ·) := by
  induction count generalizing before with
  | zero => simp [tally, readTallies]
  | succ count ih =>
    have unrolled : tally (count + 1) ++ rest = 'a' :: (tally count ++ rest) := by
      simp [tally, replicate_succ]
    rw [unrolled, readTallies, if_pos rfl, ih, Nat.add_right_comm, Nat.add_assoc]

theorem readTallies_flatMap (counts : List Nat) :
    readTallies 0 (counts.flatMap tally) = some counts := by
  induction counts with
  | nil => rfl
  | cons _ counts ih => rw [flatMap_cons, readTallies_tally, ih, map_some, Nat.zero_add]

/-- A cipher that hides nothing and opens only what it was bound to. -/
def LineCipher.transparent : LineCipher (List UInt8 × Text) where
  encrypt _ aad text := (aad, text)
  decrypt aad ciphertext := if ciphertext.1 = aad then some ciphertext.2 else none
  toBase64 ciphertext :=
    (ciphertext.1.length :: (ciphertext.1.map UInt8.toNat ++ ciphertext.2.map Char.toNat)).flatMap
      tally
  fromBase64 text :=
    (readTallies 0 text).bind fun counts =>
      match counts with
      | [] => none
      | length :: counts =>
        some ((counts.take length).map UInt8.ofNat, (counts.drop length).map Char.ofNat)

theorem LineCipher.transparent_ideal : transparent.Ideal := by
  refine ⟨fun draw aad text => if_pos rfl, fun ciphertext => ?_, fun ciphertext character mem => ?_⟩
  · have bytes : ∀ data : List UInt8, (data.map UInt8.toNat).map UInt8.ofNat = data := by
      intro data
      induction data with
      | nil => rfl
      | cons _ data ih => simpa using ih
    have characters : ∀ text : Text, (text.map Char.toNat).map Char.ofNat = text := by
      intro text
      induction text with
      | nil => rfl
      | cons character text ih => simpa using ih
    have lengths : ciphertext.1.length = (ciphertext.1.map UInt8.toNat).length := by simp
    simp only [transparent, readTallies_flatMap, bind_some]
    rw [lengths, take_left, drop_left, bytes, characters]
  obtain ⟨_, -, within⟩ := mem_flatMap.mp mem
  rcases mem_append.mp within with letter | letter
  · rw [(mem_replicate.mp letter).2]
    rfl
  rw [mem_singleton.mp letter]
  rfl

/-- A message. -/
def HistoryEntry.greeting : HistoryEntry :=
  { id := "1"
    direction := .received
    timestampMs := 0
    text := "hello"
    receipt := none
    file := none
    saved := none
    sender := none
    note := some false
    replyTo := none
    expireAfterS := 0
    readAtMs := none
    edited := false
    previous := []
    deleted := false
    reactions := [] }

def LineJson.greeting : LineJson where
  toText _ := ['x']
  fromText text := if text = ['x'] then some (.entry .greeting) else none

@[irreducible] def Log.greeting : Log (List UInt8 × Text) :=
  Log.appendHistoryLine .transparent "log" ['x'] Log.empty

@[irreducible] def overwritten : ByteArray :=
  encodeUtf8 (LINE_PREFIX ++ List.replicate 468 '!' ++ ['\n'])

def greetingLine : Nat × Text × List UInt8 × Text :=
  (0, ['x'], fileAad "log" (some 0), ['x'])

theorem file_greeting :
    Log.greeting.file = some (encodeUtf8 (Log.lineText .transparent greetingLine ++ ['\n'])) := by
  have empty : ByteArray.empty = encodeUtf8 [] := by simp [encodeUtf8]
  rw [Log.greeting]
  simp only [Log.appendHistoryLine, Log.noteHistoryWrite, Log.empty, getD_none]
  rw [empty, ← encodeUtf8_append]
  rfl

theorem size_greeting : byteSize (Log.lineText .transparent greetingLine ++ ['\n']) = 473 := by
  decide +kernel

theorem run_greeting :
    run (Log.step .transparent .greeting "log" (.group [])) Log.empty [.appendHistoryLine ['x']] =
      some Log.greeting := by
  have fits : (Log.greeting.file.all fun file => file.size < MAX_FILE) = true := by
    rw [file_greeting, all_some, size_encodeUtf8, size_greeting]
    decide
  have applied : Log.apply .transparent .greeting "log" (.group []) Log.empty
      (.appendHistoryLine ['x']) = Log.greeting := by
    rw [Log.greeting, Log.apply]
  rw [run_cons, Log.step, applied]
  simp [fits]

theorem decodeUtf8_overwritten :
    decodeUtf8 overwritten = some (LINE_PREFIX ++ replicate 468 '!' ++ ['\n']) := by
  unfold overwritten
  exact decodeUtf8_encodeUtf8 _

theorem size_overwritten : overwritten.size = 473 := by
  unfold overwritten
  rw [size_encodeUtf8]
  decide +kernel

theorem overwritten_looksSealed : LooksSealed overwritten := by
  intro _ decoded
  cases decodeUtf8_overwritten.symm.trans decoded
  decide +kernel

theorem overwritten_unforged : Unforged .transparent "log" Log.greeting [] overwritten := by
  intro _ decoded entry mem _ armoured
  cases decodeUtf8_overwritten.symm.trans decoded
  have nothing : ∀ entry ∈ linesWithOffsets (LINE_PREFIX ++ replicate 468 '!' ++ ['\n']),
      transparent.fromBase64 (trim (entry.2.drop LINE_PREFIX.length)) = none := by
    decide +kernel
  rw [nothing entry mem] at armoured
  cases armoured

/-- What is read from the overwritten file answers to the log. -/
theorem loadHistory_accounts_overwritten :
    (∃ error, Log.loadHistory .transparent .greeting "log" (.group [])
        { Log.greeting with file := some overwritten } = .error error) ∨
      ∃ text kept, decodeUtf8 overwritten = some text ∧
        Accounted .transparent "log" [.appendHistoryLine ['x']] Log.greeting text kept ∧
        Log.loadHistory .transparent .greeting "log" (.group [])
            { Log.greeting with file := some overwritten } =
          .ok (entriesOf (.group []) (kept.filterMap fun line => LineJson.greeting.fromText line.2)) :=
  (loadHistory_accounts transparent_ideal run_greeting (by simp) (by rw [size_overwritten]; decide)
    overwritten_looksSealed overwritten_unforged).2.2

/-- A line that does not open is left out, and nothing is refused. -/
theorem loadHistory_leaves_out_overwritten :
    run (Log.step .transparent .greeting "log" (.group [])) Log.empty [.appendHistoryLine ['x']] =
        some Log.greeting ∧
      Unforged .transparent "log" Log.greeting [] overwritten ∧
      Log.loadHistory .transparent .greeting "log" (.group []) Log.greeting = .ok [.greeting] ∧
      Log.loadHistory .transparent .greeting "log" (.group [])
        { Log.greeting with file := some overwritten } = .ok [] := by
  obtain ⟨kept, -⟩ := kept_of_run transparent_ideal run_greeting
  have text : Log.greeting.text = Log.lineText .transparent greetingLine ++ ['\n'] := by
    rw [Log.text, file_greeting, bind_some, decodeUtf8_encodeUtf8, getD_some]
  have genuine : Log.loadHistory .transparent .greeting "log" (.group []) Log.greeting =
      .ok [.greeting] := by
    have lines : openLines .transparent "log" (Log.lineText .transparent greetingLine ++ ['\n']) =
        [(0, ['x'])] := by
      decide +kernel
    rw [loadHistory_of_readText file_greeting (kept.readText file_greeting), text, lines]
    rfl
  have tampered : Log.loadHistory .transparent .greeting "log" (.group [])
      { Log.greeting with file := some overwritten } = .ok [] := by
    have recorded : Log.greeting.recorded = some 473 := by
      rw [kept.recorded, file_greeting, map_some, size_encodeUtf8, size_greeting]
    have read : Log.readText "log" overwritten Log.greeting.recorded =
        .ok (LINE_PREFIX ++ replicate 468 '!' ++ ['\n']) := by
      rw [recorded, Log.readText, decodeUtf8_overwritten]
      simp only [size_overwritten, Nat.lt_irrefl, if_false]
    have lines : openLines .transparent "log" (LINE_PREFIX ++ replicate 468 '!' ++ ['\n']) =
        [] := by
      decide +kernel
    have held : ({ Log.greeting with file := some overwritten } : Log _).file = some overwritten :=
      rfl
    refine (loadHistory_of_readText held read).trans ?_
    rw [lines]
    rfl
  exact ⟨run_greeting, overwritten_unforged, genuine, tampered⟩

end Silver.Client
