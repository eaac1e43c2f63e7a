import Silver.Client.History.Directory

/-!
# Loading conversations after a crash

Every log is at least as long as each record an unlock could take says, except
the one being written, and holds the lines its changes left.  A crash is harmless
unless the log being written is shorter than the record that is still in place.
-/

namespace Silver.Client

open Foundation Protocol Generations LineCipher State List Log Table Machine LineJson Option
open UInt8 (toNat ofNat)

namespace Disk

variable {disk : Disk}

theorem Stands.standing {record : State} (stands : disk.Stands record) :
    disk.standing = some record := by
  obtain ⟨anchor, vault, -⟩ := stands.anchor
  rw [Disk.standing, vault, bind_some, stands.readGenerations vault]
  rfl

theorem Stands.eq {left : State} (first : disk.Stands left) (second : disk.Stands right) :
    left = right :=
  some.inj (first.standing.symm.trans second.standing)

theorem Stands.of_keepPrevious
    {record state : State} (kept : disk.keepPrevious.Stands record) (stands : disk.Stands state) :
    disk.Stands record := by
  cases stands with
  | current held vault vouched =>
    have shape : disk.keepPrevious = { disk with statePrevious := some state } := by
      simp [Disk.keepPrevious, held]
    rw [shape] at kept
    cases kept with
    | current held' vault' vouched' => exact .current held' vault' vouched'
    | previous held' beyond kept' vault' vouched' =>
      cases held.symm.trans held'
      cases vault.symm.trans vault'
      omega
  | @previous _ interrupted held beyond previous vault vouched =>
    have shape : disk.keepPrevious = { disk with statePrevious := some interrupted } := by
      simp [Disk.keepPrevious, held]
    rw [shape] at kept
    cases kept with
    | current held' vault' vouched' => exact .current held' vault' vouched'
    | previous held' _ kept' vault' vouched' =>
      cases kept'
      cases vault.symm.trans vault'
      omega

def Bounded (disk : Disk) : Prop :=
  ∃ anchor, disk.stateGeneration = some anchor ∧
    ∀ name image generation, disk.files.get name = some image ->
      image.generation = some generation -> generation <= anchor

end Disk

theorem Machine.noneAhead_of_bounded
    {machine : Machine} (phase : machine.phase = .unlocked (.bound state))
    (stands : machine.disk.Stands state) (bounded : machine.disk.Bounded) :
    machine.NoneAhead none := by
  intro record used name _ _ ahead
  obtain rfl : state = record := by
    simpa only [Machine.record, phase, mem_def, some.injEq] using used
  obtain ⟨anchor, vault, below⟩ := bounded
  obtain ⟨_, vault', _⟩ := stands.anchor
  cases vault.symm.trans vault'
  obtain ⟨image, held, carried⟩ := bind_eq_some_iff.mp ahead
  have small := below name image _ held carried
  omega

def logSize (logs : Table Conversation ByteArray) (conversation : Conversation) : Nat :=
  ((logs.get conversation).map ByteArray.size).getD 0

theorem logSize_insert_self
    (logs : Table Conversation ByteArray) (chat : Conversation) (file : ByteArray) :
    logSize (logs.insert chat file) chat = file.size := by
  rw [logSize, get_insert_self]
  rfl

theorem logSize_insert_of_ne (logs : Table Conversation ByteArray) (file : ByteArray)
    (different : other ≠ chat) :
    logSize (logs.insert chat file) other = logSize logs other := by
  rw [logSize, get_insert_of_ne different]
  rfl

/-- A record that the logs bear out, but for one: none is shorter than it says, and
each conversation it names is found again. -/
structure BornOut (names : HistoryNames) (logs : Table Conversation ByteArray)
    (excepted : Option Conversation) (record : State) : Prop where
  lengths : ∀ conversation, excepted ≠ some conversation -> ∀ entry,
    record.history.get (names.file conversation) = some entry ->
    entry.bytes <= logSize logs conversation
  parses : ∀ file entry, record.history.get file = some entry ->
    (names.parseId entry.conversation).isSome = true

namespace BornOut

variable {record : State}
  {file : ByteArray}

theorem except (born : BornOut names logs none record) (excepted : Option Conversation) :
    BornOut names logs excepted record :=
  ⟨fun chat _ => born.lengths chat (by simp), born.parses⟩

theorem insert (born : BornOut names logs none record) :
    BornOut names (logs.insert chat file) (some chat) record := by
  refine ⟨fun other different entry recorded => ?_, born.parses⟩
  rw [logSize_insert_of_ne logs file fun same => different (congrArg some same.symm)]
  exact born.lengths other (by simp) entry recorded

theorem close (born : BornOut names logs excepted record)
    (last : ∀ chat ∈ excepted, ∀ entry ∈ record.history.get (names.file chat),
      entry.bytes <= logSize logs chat) :
    BornOut names logs none record := by
  refine ⟨fun chat _ entry recorded => ?_, born.parses⟩
  by_cases same : excepted = some chat
  · exact last chat same entry recorded
  · exact born.lengths chat same entry recorded

theorem grow (born : BornOut names logs none record) (longer : logSize logs chat <= file.size) :
    BornOut names (logs.insert chat file) none record := by
  refine born.insert.close fun other same entry recorded => ?_
  cases same
  rw [logSize_insert_self]
  exact (born.lengths chat (by simp) entry recorded).trans longer

theorem wroteHistory (sound : names.Sound) (born : BornOut names logs none record)
    (named : Conversation) (generation : Nat) :
    BornOut names (logs.insert chat file) none
      { record.wroteHistory (names.file chat) (names.id named) file.size with
        generation } := by
  refine ⟨fun other _ entry recorded => ?_, fun name entry recorded => ?_⟩
  · by_cases same : other = chat
    · subst same
      cases (get_insert_self _ _ _).symm.trans recorded
      exact Nat.le_of_eq (logSize_insert_self logs other file).symm
    have apart : names.file other ≠ names.file chat :=
      fun equal => same (sound.file_injective equal)
    rw [logSize_insert_of_ne logs file same]
    exact born.lengths other (by simp) entry ((get_insert_of_ne apart).symm.trans recorded)
  by_cases same : name = names.file chat
  · subst same
    cases (get_insert_self _ _ _).symm.trans recorded
    simp [sound.parseId_id]
  · exact born.parses name entry ((get_insert_of_ne same).symm.trans recorded)

end BornOut

namespace HistoryDirectory

def NotShrunk (names : HistoryNames) (directory : HistoryDirectory) : Prop :=
  ∀ conversation ∈ directory.writing, ∀ record ∈ directory.machine.disk.standing,
    ∀ entry ∈ record.history.get (names.file conversation),
      entry.bytes <= logSize directory.logs conversation
deriving Decidable

def Careful (names : HistoryNames) (directory : HistoryDirectory) : HistoryAction -> Prop
  | .crash => directory.machine.Careful .crash ∧ directory.NotShrunk names
  | _ => True

/-- What the logs bear out of the record on its way to the disk. -/
def Pending (names : HistoryNames) (directory : HistoryDirectory) : Prop :=
  match directory.machine.phase with
  | .closed | .unlocked _ => directory.writing = none
  | .keeping next | .raising next => BornOut names directory.logs none next
  | .storing next =>
    BornOut names directory.logs none next ∧
      ∀ kept, directory.machine.disk.statePrevious = some kept ->
        kept.generation + 1 = next.generation ->
        BornOut names directory.logs directory.writing kept

/-- What holds of the record at every point of a write. -/
structure Sound (names : HistoryNames) (directory : HistoryDirectory) : Prop where
  consistent : directory.machine.Consistent
  bounded : directory.machine.disk.Bounded
  stands : ∀ record, directory.machine.disk.Stands record ->
    BornOut names directory.logs directory.writing record
  pending : directory.Pending names

namespace Sound

variable {next : State} {directory : HistoryDirectory}

section

variable (sound : directory.Sound names)
include sound

theorem unlocked (phase : directory.machine.phase = .unlocked generations) :
    ∃ state, generations = .bound state ∧ directory.machine.disk.Opens state ∧
      BornOut names directory.logs none state ∧ directory.writing = none := by
  obtain ⟨state, rfl, opens⟩ := sound.consistent.opens phase
  have idle : directory.writing = none := by simpa only [Pending, phase] using sound.pending
  exact ⟨state, rfl, opens, idle ▸ sound.stands state opens.stands, idle⟩

theorem close (phase : directory.machine.phase = .unlocked generations)
    {logs : Table Conversation ByteArray} {drawn : Nat}
    (born : ∀ state, directory.machine.disk.Stands state -> BornOut names logs none state) :
    Sound names
      { machine := { directory.machine with phase := .closed }, logs, drawn, writing := none } := by
  obtain ⟨state, rfl, opens, -, -⟩ := sound.unlocked phase
  exact ⟨⟨state, opens⟩, sound.bounded, born, rfl⟩

theorem noteHistoryWrite
    (namesSound : names.Sound) (phase : directory.machine.phase = .unlocked (.bound state))
    (chat named : Conversation) (file : ByteArray) (drawn : Nat) :
    Sound names (directory.noteHistoryWrite names (.bound state) chat named file drawn) := by
  obtain ⟨_, same, opens, born, -⟩ := sound.unlocked phase
  obtain rfl := bound.inj same
  have careful : directory.machine.Careful
      (.noteHistoryWrite (names.file chat) (names.id named) file.size) :=
    noneAhead_of_bounded phase opens.stands sound.bounded
  have ran : directory.machine.step
      (.noteHistoryWrite (names.file chat) (names.id named) file.size) =
      some (directory.noteHistoryWrite names (.bound state) chat named file drawn).machine := by
    simp only [Machine.step, phase]
    rfl
  refine ⟨sound.consistent.step careful ran, sound.bounded, fun record stands => ?_,
    born.wroteHistory namesSound named _⟩
  obtain rfl := opens.stands.eq stands
  exact born.insert

theorem insert (phase : directory.machine.phase = .unlocked (.bound state))
    {chat : Conversation} (file : ByteArray) (drawn : Nat)
    (unnamed : state.history.get (names.file chat) = none) :
    Sound names
      { directory with logs := directory.logs.insert chat file, drawn } := by
  obtain ⟨_, same, opens, born, idle⟩ := sound.unlocked phase
  obtain rfl := bound.inj same
  refine ⟨sound.consistent, sound.bounded, fun record stands => ?_, by
    simpa only [Pending, phase] using idle⟩
  obtain rfl := opens.stands.eq stands
  rw [idle]
  refine born.insert.close fun other same entry recorded => ?_
  cases same
  rw [unnamed] at recorded
  cases recorded

theorem crash (careful : directory.Careful names .crash) :
    Sound names (directory.settle { directory.machine with phase := .closed }) := by
  obtain ⟨reach, notShrunk⟩ := careful
  refine ⟨sound.consistent.crash reach, sound.bounded, fun record stands => ?_, rfl⟩
  exact (sound.stands record stands).close fun chat writing entry recorded =>
    notShrunk chat writing record stands.standing entry recorded

theorem unlock (phase : directory.machine.phase = .closed) : Sound names (directory.settle
      { disk := directory.machine.disk.unlock.2
        phase := .unlocked directory.machine.disk.unlock.1 }) := by
  have consistent := sound.consistent
  simp only [Machine.Consistent, phase] at consistent
  obtain ⟨_, opens⟩ := consistent
  have idle : directory.writing = none := by simpa only [Pending, phase] using sound.pending
  rw [opens.unlock]
  refine ⟨opens, sound.bounded, fun record stands => ?_, rfl⟩
  have born := sound.stands record stands
  rw [idle] at born
  exact born

theorem keep (phase : directory.machine.phase = .keeping next) : Sound names (directory.settle
      { disk := directory.machine.disk.keepPrevious, phase := .storing next }) := by
  have consistent := sound.consistent
  simp only [Machine.Consistent, phase] at consistent
  obtain ⟨state, opens, precedes⟩ := consistent
  have born : BornOut names directory.logs none next := by
    simpa only [Pending, phase] using sound.pending
  have frame : directory.machine.disk.keepPrevious.files = directory.machine.disk.files ∧
      directory.machine.disk.keepPrevious.stateGeneration =
        directory.machine.disk.stateGeneration := by
    cases held : directory.machine.disk.state <;> simp [Disk.keepPrevious, held]
  refine ⟨consistent_keepPrevious opens precedes, ?_,
    fun record stands => sound.stands record (stands.of_keepPrevious opens.stands),
    born, fun kept previous generation => ?_⟩
  · obtain ⟨anchor, vault, below⟩ := sound.bounded
    exact ⟨anchor, frame.2.trans vault, fun name image generation held =>
      below name image generation (frame.1 ▸ held)⟩
  -- What is kept back a generation before the next record is the record that stands.
  have stands := opens.stands
  have advance := precedes.generation
  cases stands with
  | current held vault vouched =>
    have same : some state = some kept := by
      simpa only [settle, Disk.keepPrevious, held] using previous
    exact some.inj same ▸ sound.stands state opens.stands
  | @previous anchor interrupted held _ _ _ vouched =>
    have same : some interrupted = some kept := by
      simpa only [settle, Disk.keepPrevious, held] using previous
    cases same
    omega

theorem store (phase : directory.machine.phase = .storing next) (consistent : Machine.Consistent
      { disk := directory.machine.disk.writeState next, phase := .raising next }) :
    Sound names (directory.settle
      { disk := directory.machine.disk.writeState next, phase := .raising next }) := by
  obtain ⟨born, kept⟩ : BornOut names directory.logs none next ∧
      ∀ kept, directory.machine.disk.statePrevious = some kept ->
        kept.generation + 1 = next.generation ->
        BornOut names directory.logs directory.writing kept := by
    simpa only [Pending, phase] using sound.pending
  refine ⟨consistent, sound.bounded, fun record stands => ?_, born⟩
  cases stands with
  | current held vault vouched =>
    cases held
    exact born.except _
  | previous held _ previous vault vouched =>
    cases held
    exact kept record previous (by omega)

theorem raise (phase : directory.machine.phase = .raising next) (consistent : Machine.Consistent
      { disk := directory.machine.disk.raiseAnchor next.generation
        phase := .unlocked (.bound next) }) :
    Sound names (directory.settle
      { disk := directory.machine.disk.raiseAnchor next.generation
        phase := .unlocked (.bound next) }) := by
  have born : BornOut names directory.logs none next := by
    simpa only [Pending, phase] using sound.pending
  have before := sound.consistent
  simp only [Machine.Consistent, phase] at before
  obtain ⟨_, _, precedes, vault, _, -⟩ := before
  have opens := consistent
  refine ⟨consistent, ⟨next.generation, rfl, fun name image generation held carried => ?_⟩,
    fun record stands => ?_, rfl⟩
  · obtain ⟨_, vault', below⟩ := sound.bounded
    cases vault.symm.trans vault'
    have small := below name image generation held carried
    have advance := precedes.generation
    omega
  obtain rfl := opens.stands.eq stands
  exact born

end

end Sound

end HistoryDirectory

abbrev HeldLines : Type :=
  Table Conversation (List HistoryLine)

/-- What a step may leave of the lines held.  An append that is cut leaves its line
or nothing; every other change is made in full. -/
def HistoryAction.Leaves (before after : HeldLines) : HistoryAction -> Prop
  | .appendHistoryLine conversation line =>
    after = before.insert conversation ((before.get conversation).getD [] ++ [line.stored])
  | .cutAppend conversation line _ =>
    after = before.insert conversation ((before.get conversation).getD []) ∨
      after = before.insert conversation ((before.get conversation).getD [] ++ [line.stored])
  | .removeMessages conversation ids =>
    after = match before.get conversation with
      | none => before
      | some lines => before.insert conversation (removedLines ids lines)
  | .markAllDeleted conversation ids sender =>
    after = match before.get conversation with
      | none => before
      | some lines => before.insert conversation (deletedLines conversation ids sender lines)
  | .unlock | .persist | .crash => after = before

/-- What a run may leave of the lines held. -/
inductive Leads (initial : HeldLines) : List HistoryAction -> HeldLines -> Prop where
  | start : Leads initial [] initial
  | step {actions : List HistoryAction} {action : HistoryAction} {before after : HeldLines}
      (led : Leads initial actions before)
      (leaves : action.Leaves before after) :
      Leads initial (actions ++ [action]) after

def ReadsAs {Ciphertext : Type} (cipher : LineCipher Ciphertext) (json : LineJson) (name : String) :
    Option ByteArray -> Option (List HistoryLine) -> Prop
  | none, none => True
  | some file, some lines => ∃ text, file = encodeUtf8 text ∧ Readable cipher json name text lines
  | _, _ => False

section ReadsAs

variable {file : Option ByteArray}

theorem ReadsAs.cases (reads : ReadsAs cipher json name file lines) : file = none ∧ lines = none ∨
      ∃ text held, file = some (encodeUtf8 text) ∧ lines = some held ∧
        Readable cipher json name text held := by
  cases file with
  | none =>
    cases lines with
    | none => exact .inl ⟨rfl, rfl⟩
    | some held => exact reads.elim
  | some file =>
    cases lines with
    | none => exact reads.elim
    | some held =>
      obtain ⟨text, rfl, readable⟩ := reads
      exact .inr ⟨text, held, rfl, rfl, readable⟩

theorem ReadsAs.text (reads : ReadsAs cipher json name file lines) :
    ∃ text, file.getD ByteArray.empty = encodeUtf8 text ∧
      Readable cipher json name text (lines.getD []) := by
  rcases reads.cases with ⟨rfl, rfl⟩ | ⟨text, _, rfl, rfl, readable⟩
  · exact ⟨[], by simp [encodeUtf8], readable_nil⟩
  · exact ⟨text, rfl, readable⟩

end ReadsAs

namespace HistoryDirectory

variable {cipher : LineCipher Ciphertext}
  {names : HistoryNames} {directory next : HistoryDirectory} {held : HeldLines}
variable {text : Text}

/-- A directory whose record is in order and whose logs hold some lines. -/
structure Holds (cipher : LineCipher Ciphertext) (json : LineJson) (names : HistoryNames)
    (directory : HistoryDirectory) (held : HeldLines) : Prop where
  sound : directory.Sound names
  reads : ∀ conversation, ReadsAs cipher json (names.file conversation)
    (directory.logs.get conversation) (held.get conversation)

theorem readsAs_insert (reads : ∀ chat, ReadsAs cipher json (names.file chat)
      (directory.logs.get chat) (held.get chat))
    {lines : List HistoryLine}
    (readable : Readable cipher json (names.file chat) text lines) (other : Conversation) :
    ReadsAs cipher json (names.file other)
      ((directory.logs.insert chat (encodeUtf8 text)).get other)
      ((held.insert chat lines).get other) := by
  by_cases same : other = chat
  · subst same
    rw [get_insert_self, get_insert_self]
    exact ⟨text, rfl, readable⟩
  rw [get_insert_of_ne same, get_insert_of_ne same]
  exact reads other

section

variable (reliable : ReliableFormat cipher json) (namesSound : names.Sound)
  (holds : directory.Holds cipher json names held)
  (phase : directory.machine.phase = .unlocked generations)
include holds phase

theorem Holds.reads_log (file : directory.logs.get chat = some (encodeUtf8 text))
    (readable : Readable cipher json (names.file chat) text lines) :
    (directory.log names generations chat).Reads cipher json (names.file chat)
      text lines := by
  refine ⟨file, readable, fun length recorded => ?_⟩
  obtain ⟨_, rfl, -, born, -⟩ := holds.sound.unlocked phase
  obtain ⟨entry, named, rfl⟩ := map_eq_some_iff.mp recorded
  have enough := born.lengths chat (by simp) entry named
  rwa [logSize, file, map_some, getD_some, size_encodeUtf8] at enough

theorem Holds.loadHistory (chat : Conversation) :
    directory.loadHistory cipher json names chat =
      some (.ok (entriesOf chat ((held.get chat).getD []))) := by
  obtain ⟨state, rfl, -, -, -⟩ := holds.sound.unlocked phase
  have loads : Log.loadHistory cipher json (names.file chat) chat
      (directory.log names (.bound state) chat) =
      .ok (entriesOf chat ((held.get chat).getD [])) := by
    rcases (holds.reads chat).cases with
      ⟨file, lines⟩ | ⟨_, _, file, lines, readable⟩
    · rw [lines]
      simp only [log, file]
      rfl
    rw [lines]
    exact (holds.reads_log phase file readable).loadHistory chat
  simp only [HistoryDirectory.loadHistory, phase, refusal, loads, Except.mapError]
  cases directory.logs.get chat <;> rfl

include reliable

theorem Holds.cutAppend (chat : Conversation) (line : HistoryLine) (kept : Nat) :
    ∃ after, (HistoryAction.cutAppend chat line kept).Leaves held after ∧
      Holds cipher json names
        (directory.cutAppend cipher json names generations chat line kept) after := by
  obtain ⟨state, rfl, opens, born, -⟩ := holds.sound.unlocked phase
  let before : Log Ciphertext := directory.log names (.bound state) chat
  obtain ⟨text, onDisk, readable⟩ := (holds.reads chat).text
  have file : before.file.getD ByteArray.empty = encodeUtf8 text := onDisk
  let appended := appendedText cipher (names.file chat) (json.toText line) before
  have written : before.file.getD ByteArray.empty ++ (encodeUtf8 appended).extract 0 kept =
      encodeUtf8 (text ++ appended.take kept) := by
    rw [extract_encodeUtf8_of_ascii (ascii_appendedText reliable _ _), encodeUtf8_append]
    exact congrArg (· ++ encodeUtf8 (appended.take kept)) file
  have longer : logSize directory.logs chat <= (encodeUtf8 (text ++ appended.take kept)).size := by
    have size : logSize directory.logs chat = byteSize text := by
      rw [← size_encodeUtf8, ← onDisk, logSize]
      cases directory.logs.get chat <;> rfl
    rw [size, size_encodeUtf8, byteSize_append]
    omega
  obtain ⟨lines, reads, either⟩ := readable.appendedText reliable file line kept
  refine ⟨held.insert chat lines, ?_, ?_, ?_⟩
  · rcases either with rfl | ⟨rfl, -⟩
    · exact .inr rfl
    · exact .inl rfl
  · refine holds.sound.close phase fun record stands => ?_
    obtain rfl := opens.stands.eq stands
    exact born.grow (written ▸ longer)
  simp only [HistoryDirectory.cutAppend]
  rw [written]
  exact readsAs_insert holds.reads reads

include namesSound

theorem Holds.appendHistoryLine (chat : Conversation) (line : HistoryLine) :
    Holds cipher json names
      (directory.appendHistoryLine cipher json names generations chat line)
      (held.insert chat ((held.get chat).getD [] ++ [line.stored])) := by
  obtain ⟨state, rfl, -, -, -⟩ := holds.sound.unlocked phase
  let before : Log Ciphertext := directory.log names (.bound state) chat
  obtain ⟨text, onDisk, readable⟩ := (holds.reads chat).text
  have reads := reads_appendHistoryLine reliable readable
    (show before.file.getD ByteArray.empty = encodeUtf8 text from onDisk) line
  simp only [HistoryDirectory.appendHistoryLine, refusal, isSome_none, Bool.false_eq_true, if_false]
  refine ⟨holds.sound.noteHistoryWrite namesSound phase _ _ _ _, ?_⟩
  simp only [HistoryDirectory.noteHistoryWrite]
  rw [reads.held, getD_some]
  exact readsAs_insert holds.reads reads.readable

omit reliable in
theorem Holds.rewrite {after : Log Ciphertext} {lines : List HistoryLine}
    (rewritten : rewritten cipher json (names.file chat) chat
      (directory.log names generations chat) act = some after)
    (reads : after.Reads cipher json (names.file chat) text lines) :
    Holds cipher json names
      (directory.rewrite cipher json names generations chat act)
      (held.insert chat lines) := by
  obtain ⟨state, rfl, -, born, -⟩ := holds.sound.unlocked phase
  simp only [HistoryDirectory.rewrite, refusal, isSome_none, Bool.false_eq_true,
    if_false, rewritten, reads.held, getD_some]
  cases found : conversationFor names (.bound state) (names.file chat) with
  | none =>
    have unnamed : state.history.get (names.file chat) = none := by
      cases recorded : state.history.get (names.file chat) with
      | none => rfl
      | some entry =>
        obtain ⟨_, parsed⟩ := isSome_iff_exists.mp (born.parses _ entry recorded)
        simp [conversationFor, historyState, recorded, parsed] at found
    exact ⟨holds.sound.insert phase _ _ unnamed, readsAs_insert holds.reads reads.readable⟩
  | some =>
    exact ⟨holds.sound.noteHistoryWrite namesSound phase _ _ _ _,
      readsAs_insert holds.reads reads.readable⟩

theorem Holds.removeMessages (chat : Conversation) (ids : List String) :
    ∃ after, (HistoryAction.removeMessages chat ids).Leaves held after ∧
      Holds cipher json names
        (directory.rewrite cipher json names generations chat (.removeMessages ids))
        after := by
  rcases (holds.reads chat).cases with ⟨file, lines⟩ | ⟨_, before, file, lines, readable⟩
  · have untouched : directory.rewrite cipher json names generations chat
        (.removeMessages ids) = directory := by
      simp [HistoryDirectory.rewrite, rewritten, HistoryDirectory.log, file]
    refine ⟨held, by simp only [HistoryAction.Leaves, lines], ?_⟩
    rw [untouched]
    exact holds
  obtain ⟨after, _, rewritten, left⟩ :=
    rewritten_removeMessages reliable (holds.reads_log phase file readable) chat ids
  refine ⟨held.insert chat (removedLines ids before), by
    simp only [HistoryAction.Leaves, lines], ?_⟩
  exact holds.rewrite namesSound phase rewritten left

theorem Holds.markAllDeleted (chat : Conversation) (ids : List String) (sender : Option UserId) :
    ∃ after, (HistoryAction.markAllDeleted chat ids sender).Leaves held after ∧
      Holds cipher json names
        (directory.rewrite cipher json names generations chat (.markAllDeleted ids sender))
        after := by
  let log : Log Ciphertext := directory.log names generations chat
  have untouched (unwritten : rewritten cipher json (names.file chat) chat log
      (.markAllDeleted ids sender) = none) :
      directory.rewrite cipher json names generations chat (.markAllDeleted ids sender) =
        directory := by
    simp only [HistoryDirectory.rewrite, log] at unwritten ⊢
    simp [unwritten]
  rcases (holds.reads chat).cases with ⟨file, lines⟩ | ⟨_, before, file, lines, readable⟩
  · refine ⟨held, by simp only [HistoryAction.Leaves, lines], ?_⟩
    rw [untouched (by
      simp [Log.rewritten, Log.markAllDeleted, Log.readHistoryLines, log, HistoryDirectory.log, file,
        bind, Except.bind, Except.toOption, Log.deletionOf, Log.heldAuthor])]
    exact holds
  refine ⟨held.insert chat (deletedLines chat ids sender before), by
    simp only [HistoryAction.Leaves, lines], ?_⟩
  rcases rewritten_markAllDeleted reliable (holds.reads_log phase file readable) chat ids
      sender with
    ⟨unwritten, same⟩ | ⟨after, rest, rewritten, left⟩
  · have unchanged : held.insert chat (deletedLines chat ids sender before) =
        held := by
      rw [same]
      funext other
      change (held.insert chat before).get other = held.get other
      rw [get_insert]
      split
      · next equal => rw [equal, lines]
      · rfl
    rw [untouched unwritten, unchanged]
    exact holds
  · exact holds.rewrite namesSound phase rewritten left

omit phase in
theorem Holds.step (careful : directory.Careful names action)
    (ran : directory.step cipher json names action = some next) :
    ∃ after, action.Leaves held after ∧ next.Holds cipher json names after := by
  cases action with
  | unlock =>
    simp only [HistoryDirectory.step] at ran
    obtain ⟨machine, moved, rfl⟩ := map_eq_some_iff.mp ran
    cases phase : directory.machine.phase <;>
      simp [Machine.step, phase] at moved
    rw [← moved]
    exact ⟨held, rfl, holds.sound.unlock phase, holds.reads⟩
  | persist =>
    simp only [HistoryDirectory.step] at ran
    obtain ⟨machine, moved, rfl⟩ := map_eq_some_iff.mp ran
    have persists : directory.machine.Careful .persist := trivial
    have consistent := holds.sound.consistent.step persists moved
    refine ⟨held, rfl, ?_, holds.reads⟩
    cases phase : directory.machine.phase <;>
      simp [Machine.step, phase] at moved
    · exact moved ▸ holds.sound.keep phase
    · exact moved ▸ holds.sound.store phase (moved ▸ consistent)
    · exact moved ▸ holds.sound.raise phase (moved ▸ consistent)
  | crash =>
    simp only [HistoryDirectory.step] at ran
    obtain ⟨machine, moved, rfl⟩ := map_eq_some_iff.mp ran
    obtain rfl : { directory.machine with phase := .closed } = machine := by
      cases phase : directory.machine.phase <;> simpa only [Machine.step, phase,
        some.injEq] using moved
    exact ⟨held, rfl, holds.sound.crash careful, holds.reads⟩
  | appendHistoryLine chat line =>
    cases phase : directory.machine.phase <;>
      simp [HistoryDirectory.step, phase] at ran
    rw [← ran]
    exact ⟨_, rfl, holds.appendHistoryLine reliable namesSound phase chat line⟩
  | cutAppend chat line kept =>
    cases phase : directory.machine.phase <;>
      simp only [HistoryDirectory.step, phase, reduceCtorEq] at ran
    split at ran
    · cases ran
    rw [← some.inj ran]
    exact holds.cutAppend reliable phase chat line kept
  | removeMessages chat ids =>
    cases phase : directory.machine.phase <;>
      simp [HistoryDirectory.step, phase] at ran
    rw [← ran]
    exact holds.removeMessages reliable namesSound phase chat ids
  | markAllDeleted chat ids sender =>
    cases phase : directory.machine.phase <;>
      simp [HistoryDirectory.step, phase] at ran
    rw [← ran]
    exact holds.markAllDeleted reliable namesSound phase chat ids sender

end

end HistoryDirectory

def HistoryAction.Removes (conversation : Conversation) (id : String) : HistoryAction -> Prop
  | .appendHistoryLine changed line | .cutAppend changed line _ =>
    changed = conversation ∧ ∃ sender, line = .gone id sender
  | .removeMessages changed ids => changed = conversation ∧ id ∈ ids
  | .unlock | .markAllDeleted _ _ _ | .persist | .crash => False

def HeldLines.of (held : HeldLines) (conversation : Conversation) : List HistoryLine :=
  (held.get conversation).getD []

theorem HeldLines.of_insert
    (held : HeldLines) (changed chat : Conversation) (lines : List HistoryLine) :
    HeldLines.of (held.insert changed lines) chat =
      if chat = changed then lines else held.of chat := by
  rw [HeldLines.of, get_insert]
  split <;> rfl

/-- What a step that does not remove a message may do to the lines of a
conversation. -/
inductive LinesChange (conversation : Conversation) (id : String) (before : List HistoryLine) :
    List HistoryLine -> Prop where
  | same : LinesChange conversation id before before
  | append {line : HistoryLine} (other : ∀ sender, line ≠ .gone id sender) :
      LinesChange conversation id before (before ++ [line.stored])
  | remove {ids : List String} (other : id ∉ ids) :
      LinesChange conversation id before (removedLines ids before)
  | delete (ids : List String) (sender : Option UserId) :
      LinesChange conversation id before (deletedLines conversation ids sender before)

namespace LinesChange

variable {id : String} {before after : List HistoryLine}

theorem holdsEntry (change : LinesChange chat id before after) (held : HoldsEntry before id) :
    HoldsEntry after id := by
  cases change with
  | same => exact held
  | append other => exact held.append _
  | remove other => exact held.removedLines other
  | delete ids sender => exact held.deletedLines chat ids sender

theorem notGone (change : LinesChange chat id before after) (kept : NotGone before id) :
    NotGone after id := by
  cases change with
  | same => exact kept
  | @append line other =>
    refine kept.snoc fun sender => ?_
    cases line <;> first | exact other sender | simp [HistoryLine.stored]
  | remove other => exact kept.removedLines other
  | delete ids sender => exact kept.deletedLines chat ids sender

end LinesChange

/-- Every step changes the lines of a conversation in one of these ways. -/
theorem HistoryAction.Leaves.change
    {action : HistoryAction} {before after : HeldLines} {id : String}
    (leaves : action.Leaves before after) (kept : ¬ action.Removes chat id) :
    LinesChange chat id (before.of chat) (after.of chat) := by
  have insert : ∀ {changed : Conversation} {lines : List HistoryLine},
      (chat = changed -> LinesChange chat id (before.of chat) lines) ->
      LinesChange chat id (before.of chat) (HeldLines.of (before.insert changed lines) chat) := by
    intro changed lines here
    rw [HeldLines.of_insert]
    split
    · next same => exact here same
    · exact .same
  have appended : ∀ {changed : Conversation} {line : HistoryLine},
      ¬ (changed = chat ∧ ∃ sender, line = .gone id sender) ->
      LinesChange chat id (before.of chat) (HeldLines.of
        (before.insert changed ((before.get changed).getD [] ++ [line.stored])) chat) := by
    intro changed line kept
    refine insert fun same => ?_
    subst same
    exact .append fun sender equal => kept ⟨rfl, sender, equal⟩
  have rewritten : ∀ {changed : Conversation} {change : List HistoryLine -> List HistoryLine},
      (after = match before.get changed with
        | none => before
        | some lines => before.insert changed (change lines)) ->
      (∀ lines, chat = changed -> LinesChange chat id lines (change lines)) ->
      LinesChange chat id (before.of chat) (after.of chat) := by
    intro changed change leaves changes
    cases held : before.get changed with
    | none =>
      simp only [held] at leaves
      rw [leaves]
      exact .same
    | some lines =>
      simp only [held] at leaves
      rw [leaves]
      refine insert fun same => ?_
      rw [HeldLines.of, same, held]
      exact same ▸ changes lines same
  cases action with
  | unlock | persist | crash =>
    rw [show after = before from leaves]
    exact .same
  | appendHistoryLine changed line =>
    rw [show after = _ from leaves]
    exact appended kept
  | cutAppend changed line =>
    rcases leaves with cut | whole
    · rw [cut]
      exact insert fun same => same ▸ .same
    rw [whole]
    exact appended kept
  | removeMessages changed ids =>
    exact rewritten leaves fun lines same => .remove fun listed => kept ⟨same.symm, listed⟩
  | markAllDeleted changed ids sender =>
    exact rewritten leaves fun lines same => same ▸ .delete ids sender

theorem Leads.holdsEntry {held : HeldLines} {message : HistoryEntry}
    (led : Leads initial actions held)
    (kept : ∀ action ∈ actions, ¬ action.Removes chat message.id)
    (notGone : NotGone (initial.of chat) message.id) :
    NotGone (held.of chat) message.id ∧
      (.appendHistoryLine chat (.entry message) ∈ actions ->
        HoldsEntry (held.of chat) message.id) := by
  induction led with
  | start => exact ⟨notGone, by simp⟩
  | @step actions action _ after led leaves ih =>
    obtain ⟨stays, present⟩ := ih fun other mem => kept other (mem_append_left _ mem)
    have change := leaves.change (kept action (by simp))
    refine ⟨change.notGone stays, fun mem => ?_⟩
    rcases mem_append.mp mem with earlier | last
    · exact change.holdsEntry (present earlier)
    obtain rfl := mem_singleton.mp last
    rw [show after = _ from leaves, HeldLines.of_insert, if_pos rfl]
    exact ⟨{ message with receipt := none }, by simp [HistoryLine.stored], rfl⟩

/-- A directory before a run: unlocked, with its record written and vouched for, no
file past the record, and logs that bear it out and read as some lines. -/
structure HistoryDirectory.Starts {Ciphertext : Type} (cipher : LineCipher Ciphertext)
    (json : LineJson) (names : HistoryNames) (directory : HistoryDirectory) (state : State)
    (held : HeldLines) : Prop where
  phase : directory.machine.phase = .unlocked (.bound state)
  recorded : directory.machine.disk.Recorded state
  within : ∀ name generation, state.files.get name = some generation -> generation <= state.generation
  idle : directory.writing = none
  born : BornOut names directory.logs none state
  reads : ∀ conversation, ReadsAs cipher json (names.file conversation)
    (directory.logs.get conversation) (held.get conversation)

theorem HistoryDirectory.Starts.holds {names : HistoryNames}
    {directory : HistoryDirectory} {held : HeldLines}
    (starts : directory.Starts cipher json names state held) :
    directory.Holds cipher json names held := by
  have opens := starts.recorded.opens
  refine ⟨⟨?_, ⟨state.generation, starts.recorded.vault, ?_⟩, fun record stands => ?_, ?_⟩,
    starts.reads⟩
  · simp only [Machine.Consistent, starts.phase]
    exact opens
  · intro name image generation held carried
    obtain ⟨recorded, carried', named⟩ := starts.recorded.matched name image held
    cases carried.symm.trans carried'
    exact starts.within name generation named
  · obtain rfl := opens.stands.eq stands
    rw [starts.idle]
    exact starts.born
  simp only [HistoryDirectory.Pending, starts.phase]
  exact starts.idle

/-- Through every run of appends, rewrites and crashes whose steps meet the
condition, every conversation of the reopened directory loads, as the changes made
to it tell with at most the cut appends missing, and every entry appended and never
removed is in it. -/
theorem loadHistory_after_crashes
    {Ciphertext : Type} {cipher : LineCipher Ciphertext} {json : LineJson} {names : HistoryNames}
    (reliable : ReliableFormat cipher json) (namesSound : names.Sound)
    {initial final : HistoryDirectory} {state : State} {held : HeldLines}
    {generations : Generations} {actions : List HistoryAction}
    (starts : initial.Starts cipher json names state held)
    (careful : EachState (HistoryDirectory.step cipher json names) (HistoryDirectory.Careful names)
      initial actions)
    (ended : run (HistoryDirectory.step cipher json names) initial actions = some final)
    (reopened : final.machine.phase = .unlocked generations) :
    ∃ after, Leads held actions after ∧ ∀ conversation, ∃ entries,
      final.loadHistory cipher json names conversation = some (.ok entries) ∧
      entries = entriesOf conversation (after.of conversation) ∧
      ∀ message, .appendHistoryLine conversation (.entry message) ∈ actions →
        (∀ action ∈ actions, ¬ action.Removes conversation message.id) →
        NotGone (held.of conversation) message.id →
        message.id ∈ entries.map HistoryEntry.id := by
  let relates : List HistoryAction -> HistoryDirectory -> Prop := fun before directory =>
    ∃ after, Leads held before after ∧ directory.Holds cipher json names after
  have start : relates [] initial := ⟨held, .start, starts.holds⟩
  have extend : ∀ before action directory next, relates before directory ->
      directory.Careful names action -> directory.step cipher json names action = some next ->
      relates (before ++ [action]) next := by
    rintro before action directory next ⟨_, led, holds⟩ met stepped
    obtain ⟨after, leaves, kept⟩ := holds.step reliable namesSound met stepped
    exact ⟨after, led.step leaves, kept⟩
  obtain ⟨after, led, holds⟩ := EachState.run_relates careful start extend ended
  refine ⟨after, led, fun conversation => ⟨_, holds.loadHistory reopened conversation, rfl, ?_⟩⟩
  intro message appended kept notGone
  obtain ⟨stays, present⟩ := led.holdsEntry kept notGone
  exact mem_entriesOf (present appended) stays conversation

instance countableChar : Countable Char :=
  Function.Injective.countable fun _ _ same => Char.toNat_inj.mp same

instance countableString : Countable String :=
  Function.Injective.countable fun _ _ same => String.toList_inj.mp same

instance (size : Nat) : Countable (Bytes size) :=
  Function.Injective.countable fun _ _ same => Bytes.ext same

deriving instance Countable for Direction, ReceiptKind, FileInfo, Reaction, HistoryEntry, HistoryLine

def LineCipher.terminated : LineCipher (List UInt8 × Text) where
  encrypt := LineCipher.transparent.encrypt
  decrypt := LineCipher.transparent.decrypt
  toBase64 ciphertext := LineCipher.transparent.toBase64 ciphertext ++ ['.']
  fromBase64 text :=
    if text.getLast? = some '.' then LineCipher.transparent.fromBase64 text.dropLast else none

theorem mem_transparent_toBase64 (mem : character ∈ transparent.toBase64 ciphertext) :
    character = 'a' ∨ character = 'b' := by
  obtain ⟨_, -, within⟩ := mem_flatMap.mp mem
  rcases mem_append.mp within with letter | letter
  · exact .inl (mem_replicate.mp letter).2
  · exact .inr (mem_singleton.mp letter)

theorem mem_terminated_toBase64 (mem : character ∈ terminated.toBase64 ciphertext) :
    character = 'a' ∨ character = 'b' ∨ character = '.' := by
  rcases mem_append.mp mem with letter | stop
  · exact (mem_transparent_toBase64 letter).imp_right .inl
  · exact .inr (.inr (mem_singleton.mp stop))

theorem LineCipher.terminated_ideal : terminated.Ideal := by
  refine ⟨transparent_ideal.decrypt_encrypt, fun ciphertext => ?_,
    fun ciphertext character mem => ?_⟩
  · simp [terminated, transparent_ideal.fromBase64_toBase64]
  · rcases mem_terminated_toBase64 mem with rfl | rfl | rfl <;> rfl

noncomputable def HistoryLine.rank (first line : HistoryLine) : Nat :=
  if line = first then 0 else (nonempty_embedding_nat HistoryLine).some line + 1

theorem HistoryLine.rank_injective (first : HistoryLine) : Function.Injective first.rank := by
  intro _ _ same
  unfold rank at same
  split at same
  · split at same
    · next isFirst isFirst' => rw [isFirst, isFirst']
    · simp at same
  split at same
  · simp at same
  · exact (nonempty_embedding_nat HistoryLine).some.injective (by omega)

noncomputable def LineJson.numbered (first : HistoryLine) : LineJson where
  toText line := List.replicate (first.rank line.stored + 1) 'z'
  fromText text :=
    open Classical in
    if numbered : ∃ line : HistoryLine, text = List.replicate (first.rank line.stored + 1) 'z' then
      some numbered.choose.stored
    else none

theorem reliableFormat (first : HistoryLine) : ReliableFormat terminated (.numbered first) := by
  refine ⟨terminated_ideal, fun ciphertext character mem => ?_, ?_, fun line => ?_, ?_⟩
  · rcases mem_terminated_toBase64 mem with rfl | rfl | rfl <;> rfl
  · intro _ _ text shorter cut differs other
    have solid : trim shorter = shorter := trim_eq_self fun character mem =>
      terminated_ideal.solid _ character (cut.subset mem)
    have unfinished : shorter.getLast? ≠ some '.' := by
      intro finished
      rcases prefix_concat_iff.mp cut with whole | within
      · exact differs whole
      have mem := within.subset (mem_of_getLast? finished)
      rcases mem_transparent_toBase64 mem with letter | letter <;> revert letter <;> decide
    simp [solid, terminated, unfinished]
  · have found : ∃ other : HistoryLine, replicate (first.rank line.stored + 1) 'z' =
        replicate (first.rank other.stored + 1) 'z' := ⟨line, rfl⟩
    have chosen := congrArg length found.choose_spec
    simp only [length_replicate, Nat.add_right_cancel_iff] at chosen
    simp only [numbered, found, dif_pos, some.injEq]
    exact (HistoryLine.rank_injective first chosen).symm
  intro text cut _
  have unnumbered : ¬ ∃ line : HistoryLine, text = replicate (first.rank line.stored + 1) 'z' := by
    rintro ⟨line, rfl⟩
    have mem : 'z' ∈ LINE_PREFIX := cut.subset (by simp)
    revert mem
    decide
  simp only [numbered, unnumbered, dif_neg, not_false_eq_true]

def Conversation.spell : Conversation -> Text
  | .contact peer => 'c' :: (peer.data.map toNat).flatMap tally
  | .group id => 'g' :: (id.map toNat).flatMap tally

def Conversation.unspell : Text -> Option Conversation
  | 'c' :: letters =>
    (readTallies 0 letters).bind fun counts =>
      if whole : (counts.map ofNat).length = 32 then
        some (.contact ⟨counts.map ofNat, whole⟩)
      else none
  | 'g' :: letters => (readTallies 0 letters).map fun counts => .group (counts.map ofNat)
  | _ => none

theorem Conversation.unspell_spell (chat : Conversation) : unspell chat.spell = some chat := by
  have bytes : ∀ data : List UInt8, (data.map toNat).map ofNat = data := by
    intro data
    induction data with
    | nil => rfl
    | cons _ data ih => simpa using ih
  cases chat with
  | contact peer =>
    simp only [spell, unspell, readTallies_flatMap, bind_some, bytes]
    exact dif_pos peer.length_data
  | group => simp only [spell, unspell, readTallies_flatMap, map_some, bytes]

def HistoryNames.spelled : HistoryNames where
  file conversation := String.ofList conversation.spell
  id conversation := String.ofList conversation.spell
  parseId name := Conversation.unspell name.toList
  conversationOfFile _ := none

theorem HistoryNames.spelled_sound : HistoryNames.spelled.Sound := by
  have parses : ∀ chat, HistoryNames.spelled.parseId
      (HistoryNames.spelled.id chat) = some chat := by
    intro chat
    simp [spelled, Conversation.unspell_spell]
  refine ⟨fun {left right} same => ?_, parses⟩
  exact some.inj ((parses left).symm.trans ((congrArg HistoryNames.spelled.parseId same).trans
    (parses right)))

def HistoryDirectory.fresh : HistoryDirectory :=
  { machine := Machine.adopted, logs := Table.empty, drawn := 0, writing := none }

theorem HistoryDirectory.fresh_starts (cipher : LineCipher Ciphertext)
    (json : LineJson) (names : HistoryNames) :
    HistoryDirectory.fresh.Starts cipher json names Disk.protectedBefore.adopted empty := by
  have recorded : adopted.disk.Recorded Disk.protectedBefore.adopted := Disk.unlock_recorded rfl
  refine ⟨rfl, recorded, fun name generation held => ?_, rfl, ⟨?_, ?_⟩, fun _ => trivial⟩
  · revert generation
    cases name <;> decide
  · exact nofun
  · exact nofun

def HistoryAction.cutShort : List HistoryAction :=
  [.appendHistoryLine (.group []) (.entry .greeting), .persist, .persist, .persist,
    .cutAppend (.group []) (.entry .greeting) 3, .unlock]

theorem loadHistory_of_cut_append : ∃ final generations entries,
      run (HistoryDirectory.step .terminated (.numbered (.gone "1" none)) .spelled)
        HistoryDirectory.fresh HistoryAction.cutShort = some final ∧
      final.machine.phase = .unlocked generations ∧
      final.loadHistory .terminated (.numbered (.gone "1" none)) .spelled (.group []) =
        some (.ok entries) ∧
      "1" ∈ entries.map HistoryEntry.id := by
  have careful : EachState
      (HistoryDirectory.step .terminated (.numbered (.gone "1" none)) .spelled)
      (HistoryDirectory.Careful .spelled) HistoryDirectory.fresh HistoryAction.cutShort :=
    ⟨trivial, trivial, trivial, trivial, trivial, trivial, trivial⟩
  obtain ⟨_, -, loads⟩ := loadHistory_after_crashes (reliableFormat _)
    HistoryNames.spelled_sound (HistoryDirectory.fresh_starts _ _ _) careful rfl rfl
  obtain ⟨entries, loaded, -, holds⟩ := loads (.group [])
  refine ⟨_, _, entries, rfl, rfl, loaded, holds .greeting (by simp [HistoryAction.cutShort]) ?_ ?_⟩
  · intro _ member
    simp only [HistoryAction.cutShort, mem_cons, not_mem_nil, or_false] at member
    rcases member with rfl | rfl | rfl | rfl | rfl | rfl <;> simp [HistoryAction.Removes]
  · simp [NotGone, HeldLines.of]

theorem rewritten_removeMessages_only
    {Ciphertext : Type} {cipher : LineCipher Ciphertext} {name : String}
    (reliable : ReliableFormat cipher json)
    {log : Log Ciphertext}
    (held : log.file = some (encodeUtf8
      (cipher.encryptLineAt draw name (some 0) (json.toText (.entry message)) ++ ['\n'])))
    (long : ∀ length ∈ log.recorded, length <=
      byteSize (cipher.encryptLineAt draw name (some 0) (json.toText (.entry message)) ++ ['\n']))
    (chat : Conversation) :
    ∃ after, rewritten cipher json name chat log (.removeMessages [message.id]) = some after ∧
      after.file = some (encodeUtf8 (cipher.encryptLineAt log.drawn name (some 0)
        (json.toText (.gone message.id none)) ++ ['\n'])) := by
  let whole := cipher.encryptLineAt draw name (some 0) (json.toText (.entry message))
  have lines : linesWithOffsets (whole ++ ['\n']) = [(0, whole)] := by
    rw [linesWithOffsets_append_newline, linesWithOffsets,
      splitLines_of_not_mem (newline_not_mem_encryptLineAt reliable _ _ _), linesFrom,
      encryptLineAt_not_blank]
    rfl
  have read : readHistoryLines cipher json name log =
      .ok [.ok (HistoryLine.entry message).stored] := by
    rw [readHistoryLines_encodeUtf8 held long, lines, map_singleton,
      parseLine_encryptLineAt reliable]
  have dropped : [Except.ok (HistoryLine.entry message).stored].filterMap
      (withoutMessages [message.id]) = [] := by
    simp [HistoryLine.stored, withoutMessages, HistoryLine.names]
  refine ⟨writeHistoryLines cipher json name [.ok (.gone message.id none)] log, ?_, rfl⟩
  simp [rewritten, removeMessages, held, loadHistory, read, Except.map, bind, Except.bind, dropped,
    Except.toOption]

theorem length_flatMap_tally (count : Nat) :
    (((replicate count 'z').map Char.toNat).flatMap tally).length = count * 123 := by
  induction count with
  | zero => rfl
  | succ count ih =>
    have letter : (tally 'z'.toNat).length = 123 := by
      rw [tally, length_append, length_replicate]
      rfl
    rw [replicate_succ, map_cons, flatMap_cons, length_append, letter, ih]
    omega

theorem length_encryptLineAt_terminated
    (order : fewer < more) (draw other offset : Nat) (name : String) :
    (terminated.encryptLineAt draw name (some offset) (replicate fewer 'z')).length <
      (terminated.encryptLineAt other name (some offset) (replicate more 'z')).length := by
  simp only [encryptLineAt, terminated, transparent,
    flatMap_cons, flatMap_append, length_append, length_flatMap_tally]
  omega

def HistoryAction.interruptedRemoval : List HistoryAction :=
  [.appendHistoryLine (.group []) (.entry .greeting), .persist, .persist, .persist,
    .removeMessages (.group []) ["1"], .crash, .unlock]

def State.noting (bytes : Nat) : State :=
  { Disk.protectedBefore.adopted.wroteHistory (HistoryNames.spelled.file (.group []))
      (HistoryNames.spelled.id (.group [])) bytes with
    generation := Disk.protectedBefore.adopted.generation + 1 }

def HistoryDirectory.noted (file : ByteArray) : HistoryDirectory :=
  { machine :=
      { disk := Machine.adopted.disk.persistGenerations (State.noting file.size)
        phase := .unlocked (.bound (State.noting file.size)) }
    logs := Table.empty.insert (.group []) file
    drawn := 1
    writing := none }

theorem historyState_noting (bytes : Nat) :
    (bound (noting bytes)).historyState (HistoryNames.spelled.file (.group [])) =
      some ⟨HistoryNames.spelled.id (.group []), bytes⟩ := by
  simp only [historyState, noting, wroteHistory]
  exact get_insert_self _ _ _

section Interrupted

variable (cipher : LineCipher Ciphertext) (json : LineJson)

theorem run_noted (file : ByteArray) : run (HistoryDirectory.step cipher json .spelled)
      (HistoryDirectory.fresh.noteHistoryWrite .spelled (.bound Disk.protectedBefore.adopted)
        (.group []) (.group []) file 1) [.persist, .persist, .persist] =
      some (.noted file) :=
  rfl

theorem run_interrupted (file other : ByteArray) (drawn : Nat) : ∃ final,
      run (HistoryDirectory.step cipher json .spelled)
        ((HistoryDirectory.noted file).noteHistoryWrite .spelled
          (.bound (noting file.size)) (.group []) (.group []) other drawn)
        [.crash, .unlock] = some final ∧
      final.machine.phase = .unlocked (.bound (noting file.size)) ∧
      final.logs.get (.group []) = some other :=
  ⟨_, rfl, rfl, rfl⟩

end Interrupted

/-- The file is put in place before its length is recorded, and a file shorter than
recorded is refused. -/
theorem loadHistory_refuses_interrupted_removal : ∃ final found recorded,
      run (HistoryDirectory.step .terminated (.numbered (.gone "1" none)) .spelled)
        HistoryDirectory.fresh HistoryAction.interruptedRemoval = some final ∧
      final.loadHistory .terminated (.numbered (.gone "1" none)) .spelled (.group []) =
        some (.error (.history
          (.shorter (HistoryNames.spelled.file (.group [])) found recorded))) := by
  let json := numbered (.gone "1" none)
  let name := HistoryNames.spelled.file (.group [])
  have reliable : ReliableFormat .terminated json := reliableFormat _
  let first := terminated.encryptLineAt 0 name (some 0) (json.toText (.entry .greeting))
  let second := terminated.encryptLineAt 1 name (some 0) (json.toText (.gone "1" none))
  obtain ⟨file, whole⟩ : ∃ file, file = encodeUtf8 (first ++ ['\n']) := ⟨_, rfl⟩
  have appended : HistoryDirectory.fresh.step .terminated json .spelled
      (.appendHistoryLine (.group []) (.entry .greeting)) =
      some (HistoryDirectory.fresh.noteHistoryWrite .spelled (.bound Disk.protectedBefore.adopted)
        (.group []) (.group []) file 1) := by
    have phase : HistoryDirectory.fresh.machine.phase =
        .unlocked (.bound Disk.protectedBefore.adopted) := rfl
    let empty : Log (List UInt8 × Text) := HistoryDirectory.fresh.log .spelled
      (.bound Disk.protectedBefore.adopted) (.group [])
    have written : empty.file.getD ByteArray.empty ++ encodeUtf8
        (appendedText .terminated name (json.toText (.entry .greeting)) empty) = file := by
      have none : empty.file.getD ByteArray.empty = ByteArray.empty := rfl
      have drawn : empty.drawn = 0 := rfl
      rw [none, ByteArray.empty_append, whole]
      rfl
    simp only [HistoryDirectory.step, phase, HistoryDirectory.appendHistoryLine,
      refusal, isSome_none, Bool.false_eq_true, if_false,
      file_appendHistoryLine, getD_some]
    rw [written]
    rfl
  let log : Log (List UInt8 × Text) :=
    (HistoryDirectory.noted file).log .spelled (.bound (noting file.size)) (.group [])
  have held := congrArg some whole
  have size : log.recorded = some file.size :=
    congrArg (Option.map HistoryState.bytes) (historyState_noting file.size)
  have long : ∀ length ∈ log.recorded, length <= byteSize (first ++ ['\n']) := by
    intro length same
    rw [size, mem_some_iff, whole, size_encodeUtf8] at same
    omega
  obtain ⟨after, rewritten, written⟩ := rewritten_removeMessages_only reliable held long (.group [])
  have found : HistoryDirectory.conversationFor .spelled (.bound (noting file.size)) name =
      some (.group []) := by
    rw [HistoryDirectory.conversationFor, historyState_noting, bind_some,
      HistoryNames.spelled_sound.parseId_id, some_or]
  have removed : (HistoryDirectory.noted file).step .terminated json .spelled
      (.removeMessages (.group []) ["1"]) =
      some ((HistoryDirectory.noted file).noteHistoryWrite .spelled
        (.bound (noting file.size)) (.group []) (.group [])
        (encodeUtf8 (second ++ ['\n'])) after.drawn) := by
    have phase : (HistoryDirectory.noted file).machine.phase =
        .unlocked (.bound (noting file.size)) := rfl
    have lines : Log.rewritten .terminated json (HistoryNames.spelled.file (.group [])) (.group [])
        ((HistoryDirectory.noted file).log .spelled (.bound (noting file.size)) (.group []))
        (.removeMessages ["1"]) = some after := rewritten
    simp only [HistoryDirectory.step, phase, HistoryDirectory.rewrite, refusal,
      isSome_none, Bool.false_eq_true, if_false, lines, found, name, written,
      getD_some]
    rfl
  obtain ⟨final, ended, phase, logs⟩ := run_interrupted .terminated json file
    (encodeUtf8 (second ++ ['\n'])) after.drawn
  refine ⟨final, byteSize (second ++ ['\n']), file.size, ?_, ?_⟩
  · have parts : HistoryAction.interruptedRemoval =
        .appendHistoryLine (.group []) (.entry .greeting) :: ([.persist, .persist, .persist] ++
          .removeMessages (.group []) ["1"] :: [.crash, .unlock]) := rfl
    rw [parts, run_cons, appended, bind_some, run_append, run_noted, bind_some,
      run_cons, removed, bind_some]
    exact ended
  have lengths : second.length < first.length :=
    length_encryptLineAt_terminated (by simp [HistoryLine.stored, HistoryLine.rank]) 1 0 0 name
  have short : byteSize (second ++ ['\n']) < file.size := by
    rw [whole, size_encodeUtf8, byteSize_append, byteSize_append,
      byteSize_of_ascii (ascii_encryptLineAt reliable _ _ _),
      byteSize_of_ascii (ascii_encryptLineAt reliable _ _ _)]
    exact Nat.add_lt_add_right lengths _
  have refused : readHistoryLines .terminated json name
      (final.log .spelled (.bound (noting file.size)) (.group [])) =
      .error (.shorter name (byteSize (second ++ ['\n'])) file.size) := by
    refine readHistoryLines_short logs ?_ short
    exact congrArg (Option.map HistoryState.bytes) (historyState_noting file.size)
  simp only [HistoryDirectory.loadHistory, phase, logs, refusal, loadHistory]
  rw [refused]
  rfl

end Silver.Client
