import Silver.Client.Protection.Catalogue

/-!
# The index of the conversations is complete

Writes to the logs keep every log in the record, and so does any run of operations in
which an adoption is not cut short once a log has been moved.
-/

namespace Silver.Client.Protection

open Foundation Protocol Store List Cell Option
open Function (update)

namespace Store

section Writing

variable {store : Store} {cipher : Cipher}
variable {cells : List Cell} {lines : List Text}

section

variable (unlocked : store.cipher = some cipher) (inPlace : store.directory.vault = some vault)
include unlocked inPlace

theorem persist_indexed (keys : vault.Yields cipher)
    (catalogue : Catalogue cipher record store.directory view) (files : store.directory.FilesSealed) :
    Indexed (store.persist record).1 := by
  rw [persist_eq unlocked inPlace record]
  exact ⟨cipher, { vault with stateGeneration := some record.generation }, record, _,
    { inPlace := rfl
      unlocked
      keys := { keys with }
      bound := rfl
      anchor := rfl
      building := rfl
      current := Directory.readRecord_persisted ..
      catalogue := catalogue.persisted vault
      files := files.persisted _ _ _ }⟩

theorem forgetHistoryFile_eq (bound : store.binding = .bound record) (name : LogName) :
    store.forgetHistoryFile name =
      ({ store with
          directory := store.directory.persisted (some cipher) vault
            { record.removedHistory name with generation := record.generation + 1 }
          binding := .bound { record.removedHistory name with generation := record.generation + 1 }
          building := none }, .ok ()) := by
  have noted : store.forgetHistoryFile name =
      store.persist { record.removedHistory name with generation := record.generation + 1 } := by
    simp only [forgetHistoryFile, unlocked, bound]
    rfl
  rw [noted, persist_eq unlocked inPlace]

end

theorem noteHistoryWrite_indexed (name : LogName) (unlocked : store.cipher = some cipher)
    (inPlace : store.directory.vault = some vault) (keys : vault.Yields cipher)
    (bound : store.binding = .bound record) (shown : store.directory.Shows (some cipher) view)
    (legible : view.Legible) (plain : ∀ chat, view (.log (.plain chat)) = none)
    (files : store.directory.FilesSealed)
    (others : ∀ other, other ≠ name → view (.log other) ≠ none → ∃ entry,
      record.history.lookup other = some entry ∧ entry.conversation = other.conversation) :
    Indexed (store.noteHistoryWrite name name.conversation).1 := by
  simp only [noteHistoryWrite, unlocked, bound]
  refine persist_indexed unlocked inPlace keys ⟨shown, legible, plain, fun other present => ?_⟩ files
  by_cases same : other = name
  · subst same
    exact ⟨_, AList.lookup_insert _, rfl⟩
  obtain ⟨entry, entered, whose⟩ := others other same present
  exact ⟨entry, (AList.lookup_insert_ne same).trans entered, whose⟩

theorem opens_text (source : Option Cipher) (item : Item) (line : Text) :
    (encode source item (.text line)).opens source item = some (.text line) := by
  cases source with
  | none => rfl
  | some => exact opens_encode (by simp [Cipher.opensKey])

theorem mapM_opens_texts (source : Option Cipher) (item : Item) (lines : List Text) :
    ((lines.map Payload.text).map (encode source item)).mapM (opens source item) =
      some (lines.map Payload.text) := by
  induction lines with
  | nil => rfl
  | cons _ lines ih =>
    rw [map_cons, map_cons, mapM_cons, opens_text, ih]
    rfl

theorem opens_lines
    {disk : Directory} (shown : disk.Shows source view) (legible : view.Legible)
    (name : LogName) :
    ∃ lines : List Text, ((disk.read (.log name)).getD []).mapM (opens source (.log name)) =
      some (lines.map Payload.text) := by
  obtain ⟨_, keeps⟩ := legible
  rcases (shown (.log name) nofun).cases with ⟨missing, _⟩ | ⟨_, payloads, found, opened, seen⟩
  · exact ⟨[], by simp [missing]⟩
  obtain ⟨lines, rfl⟩ := keeps.texts name payloads seen
  exact ⟨lines, by simpa [found] using opened⟩

section

variable (rested : Rested store)
include rested

theorem Rested.write {chat : Conversation}
    (opened : cells.mapM (opens store.cipher (.log (store.historyFile chat))) =
      some (lines.map Payload.text)) :
    Rested ((store.withDirectory
      (store.directory.write (.log (store.historyFile chat)) cells)).noteHistoryWrite
        (store.historyFile chat) chat).1 := by
  rcases rested with ⟨cipher, _, _, view, catalogued⟩ | ⟨view, rest⟩
  · left
    have name : store.historyFile chat = .mac cipher.naming chat := by
      simp [historyFile, catalogued.unlocked]
    rw [name, catalogued.unlocked] at opened
    rw [name]
    have catalogue := catalogued.catalogue
    refine noteHistoryWrite_indexed (.mac cipher.naming chat) catalogued.unlocked
      catalogued.inPlace catalogued.keys catalogued.bound
      (catalogue.shown.write opened) (catalogue.legible.update_log _ (some lines))
      (fun other => by simpa using catalogue.plain other)
      (catalogued.files.congr fun other => Directory.read_write_of_ne (by simp))
      fun other apart present => ?_
    exact catalogue.index other (by simpa [apart] using present)
  right
  have name : store.historyFile chat = .plain chat := by
    simp [historyFile, rest.cipher]
  rw [name, rest.cipher] at opened
  rw [name]
  refine ⟨update view (.log (.plain chat)) (some (lines.map Payload.text)), ?_⟩
  simp only [noteHistoryWrite, withDirectory, rest.cipher]
  exact
    { rest with
      cipher := rfl
      shown := rest.shown.write opened
      legible := rest.legible.update_log _ (some lines)
      named := fun naming other => by simpa using rest.named naming other }

theorem Rested.not_locked : store.locked = false := by
  rcases rested with ⟨_, _, _, view, catalogued⟩ | ⟨view, rest⟩
  · simp [locked, catalogued.unlocked]
  · simp [locked, rest.bare]

theorem Rested.opens_lines (name : LogName) :
    ∃ lines : List Text,
      ((store.directory.read (.log name)).getD []).mapM (opens store.cipher (.log name)) =
        some (lines.map Payload.text) := by
  rcases rested with ⟨cipher, _, _, view, catalogued⟩ | ⟨view, rest⟩
  · rw [catalogued.unlocked]
    exact Store.opens_lines catalogued.catalogue.shown catalogued.catalogue.legible name
  rw [rest.cipher]
  exact Store.opens_lines rest.shown rest.legible name

theorem Rested.appendHistoryLine (chat : Conversation) (line : Text) :
    Rested (store.appendHistoryLine chat line).1 := by
  obtain ⟨lines, opened⟩ := rested.opens_lines (store.historyFile chat)
  have whole : ((store.directory.read (.log (store.historyFile chat))).getD [] ++
      [encode store.cipher (.log (store.historyFile chat)) (.text line)]).mapM
        (opens store.cipher (.log (store.historyFile chat))) =
      some ((lines ++ [line]).map Payload.text) := by
    rw [mapM_append, opened]
    simp [opens_text]
  unfold Store.appendHistoryLine
  simp only [rested.not_locked, Bool.false_eq_true, ↓reduceIte]
  split
  · exact rested
  · exact rested.write whole

end

theorem mapM_of_texts (texts : ∀ cell ∈ cells, ∃ line, cell.opens source item = some (.text line)) :
    ∃ lines : List Text, cells.mapM (opens source item) = some (lines.map Payload.text) := by
  induction cells with
  | nil => exact ⟨[], rfl⟩
  | cons cell cells ih =>
    obtain ⟨line, first⟩ := texts cell (.head _)
    obtain ⟨lines, rest⟩ := ih fun other mem => texts other (.tail _ mem)
    exact ⟨line :: lines, by simp [mapM_cons, first, rest]⟩

theorem text_of_mapM (opened : cells.mapM (opens source item) = some (lines.map Payload.text)) :
    ∀ cell ∈ cells, ∃ line, cell.opens source item = some (.text line) := by
  induction cells generalizing lines with
  | nil => exact fun _ mem => absurd mem not_mem_nil
  | cons cell cells ih =>
    simp only [mapM_cons, bind_eq_bind, bind_eq_some_iff] at opened
    obtain ⟨_, first, _, rest, whole⟩ := opened
    cases lines with
    | nil => cases whole
    | cons line lines =>
      obtain ⟨rfl, rfl⟩ := cons.inj (some.inj whole)
      intro other mem
      rcases mem_cons.mp mem with rfl | later
      · exact ⟨line, first⟩
      · exact ih rest other later

theorem mem_of_withoutMessages {ids : List String} {name : LogName} (mem : Except.error cell ∈
      (cells.map (store.parseLine json name)).filterMap (withoutMessages ids)) :
    cell ∈ cells := by
  obtain ⟨_, parsed, stays⟩ := mem_filterMap.mp mem
  obtain ⟨_, among, rfl⟩ := mem_map.mp parsed
  unfold parseLine at stays
  split at stays
  · obtain ⟨_, _, mapped⟩ := bind_eq_some_iff.mp stays
    obtain ⟨_, _, impossible⟩ := map_eq_some_iff.mp mapped
    cases impossible
  cases stays
  exact among

theorem text_of_written {ids : List String} {name : LogName}
    (opened : cells.mapM (opens store.cipher (.log name)) = some (lines.map Payload.text)) :
    ∀ cell ∈ ((cells.map (store.parseLine json name)).filterMap (withoutMessages ids) ++
        ids.map fun id => Except.ok (HistoryLine.gone id none)).map (store.writtenLine json name),
      ∃ line, cell.opens store.cipher (.log name) = some (.text line) := by
  intro cell mem
  obtain ⟨line, among, rfl⟩ := mem_map.mp mem
  cases line with
  | ok => exact ⟨_, opens_text ..⟩
  | error raw =>
    rcases mem_append.mp among with stays | tombstone
    · exact text_of_mapM opened raw (mem_of_withoutMessages stays)
    · simp at tombstone

theorem Rested.conversationOf {chat : Conversation} (rested : Rested store)
    (found : store.directory.read (.log (store.historyFile chat)) = some cells) :
    store.conversationOf (store.historyFile chat) = some chat := by
  rcases rested with ⟨cipher, _, record, view, catalogued⟩ | ⟨view, rest⟩
  · have present : view (.log (store.historyFile chat)) ≠ none :=
      (mem_logs_of_seen catalogued.catalogue.shown).mp (Directory.mem_logs.mpr (by simp [found]))
    obtain ⟨_, entered, whose⟩ := catalogued.catalogue.index _ present
    have named : (store.historyFile chat).conversation = chat := by
      simp [historyFile, catalogued.unlocked, LogName.conversation]
    simp [Store.conversationOf, catalogued.bound, Binding.record, entered, whose, named]
  · simp [Store.conversationOf, rest.binding, Binding.record, historyFile, rest.cipher]

theorem Rested.removeMessages
    (rested : Rested store) (json : LineJson) (chat : Conversation) (ids : List String) :
    Rested (store.removeMessages json chat ids).1 := by
  unfold Store.removeMessages
  dsimp only
  split
  · exact rested
  next found =>
    split
    · exact rested
    obtain ⟨_, opened⟩ := rested.opens_lines (store.historyFile chat)
    rw [found, getD_some] at opened
    simp only [writeHistoryLines, rested.not_locked, Bool.false_eq_true, ↓reduceIte,
      rested.conversationOf found]
    obtain ⟨_, reopened⟩ := mapM_of_texts (text_of_written opened)
    exact rested.write reopened

theorem opened_of_mapM (opened : cells.mapM (opens source item) = some payloads) :
    ((cells.map (opens source item)).takeWhile isSome).filterMap id = payloads ∧
      payloads.length = cells.length := by
  induction cells generalizing payloads with
  | nil =>
    cases opened
    exact ⟨rfl, rfl⟩
  | cons _ cells ih =>
    simp only [mapM_cons, bind_eq_bind, bind_eq_some_iff] at opened
    obtain ⟨_, first, _, rest, whole⟩ := opened
    cases whole
    obtain ⟨same, long⟩ := ih rest
    refine ⟨?_, congrArg (· + 1) long⟩
    rw [map_cons, first, takeWhile_cons_of_pos rfl, filterMap_cons, same]
    rfl

/-- The lines of one log put after those of another, and the first log gone. -/
theorem Rested.migrateHistory (rested : Rested store) (old new : UserId) :
    Rested (store.migrateHistory old new).1 := by
  unfold Store.migrateHistory
  simp only [rested.not_locked, Bool.false_eq_true, ↓reduceIte]
  split
  · exact rested
  next =>
    split
    · exact rested
    next found =>
      obtain ⟨lines, opened⟩ := rested.opens_lines (store.historyFile (.contact old))
      obtain ⟨before, beforeOpened⟩ := rested.opens_lines (store.historyFile (.contact new))
      rw [found, getD_some] at opened
      obtain ⟨all, long⟩ := opened_of_mapM opened
      rw [all, if_neg (by omega)]
      have moved : ((store.directory.read (.log (store.historyFile (.contact new)))).getD [] ++
          (lines.map Payload.text).map
            (encode store.cipher (.log (store.historyFile (.contact new))))).mapM
            (opens store.cipher (.log (store.historyFile (.contact new)))) =
          some ((before ++ lines).map Payload.text) := by
        rw [mapM_append, beforeOpened, mapM_opens_texts]
        simp
      rcases rested with ⟨cipher, vault, record, view, catalogued⟩ | ⟨view, rest⟩
      · left
        have named : ∀ chat, store.historyFile chat = .mac cipher.naming chat := fun _ => by
          simp [historyFile, catalogued.unlocked]
        have catalogue := catalogued.catalogue
        rw [named, catalogued.unlocked] at moved
        let written := (store.directory.write (.log (.mac cipher.naming (.contact new)))
          ((store.directory.read (.log (.mac cipher.naming (.contact new)))).getD [] ++
            (lines.map Payload.text).map
              (encode (some cipher) (.log (.mac cipher.naming (.contact new)))))).remove
          (.log (.mac cipher.naming (.contact old)))
        let after := { store with directory := written }
        have shown : after.directory.Shows (some cipher) _ := (catalogue.shown.write moved).remove
        have forgotten := forgetHistoryFile_eq
          (show after.cipher = some cipher from catalogued.unlocked)
          catalogued.inPlace
          catalogued.bound
          (.mac cipher.naming (.contact old))
        simp only [named, catalogued.unlocked]
        rw [show store.withDirectory written = after from rfl, forgotten]
        refine noteHistoryWrite_indexed (.mac cipher.naming (.contact new)) catalogued.unlocked
          rfl ⟨catalogued.keys.key, catalogued.keys.alone, catalogued.keys.single,
            catalogued.keys.named⟩ rfl (shown.persisted vault _)
          (((catalogue.legible.update_log _ (some (before ++ lines))).update_log _
            none).update_state _) (fun chat => ?_) ?_ fun other notNew present => ?_
        · simpa using catalogue.plain chat
        · have same : ∀ name, after.directory.read (.file name) =
              store.directory.read (.file name) := fun name => by
            simp [after, written, Directory.read_remove, Directory.read_write]
          exact (catalogued.files.congr same).persisted _ _ _
        by_cases isOld : other = .mac cipher.naming (.contact old)
        · simp [isOld] at present
        obtain ⟨entry, entered, whose⟩ :=
          catalogue.index other (by simpa [notNew, isOld] using present)
        exact ⟨entry, (AList.lookup_erase_ne isOld).trans entered, whose⟩
      right
      have named : ∀ chat, store.historyFile chat = .plain chat :=
        fun _ => by simp [historyFile, rest.cipher]
      rw [named, rest.cipher] at moved
      refine ⟨update (update view (.log (.plain (.contact new)))
        (some ((before ++ lines).map Payload.text))) (.log (.plain (.contact old))) none, ?_⟩
      simp only [named, rest.cipher, forgetHistoryFile, noteHistoryWrite, withDirectory]
      exact
        { rest with
          cipher := rfl
          shown := (rest.shown.write moved).remove
          legible := (rest.legible.update_log _ (some (before ++ lines))).update_log _ none
          named := fun naming chat => by simpa using rest.named naming chat }

end Writing

/-- Where a run of operations that keep the index can be. -/
inductive Indexing (store : Store) : Prop where
  | rested (idle : store.program = []) (rest : Rested store)
  | locked (idle : store.program = []) (out : store.cipher = none) (rest : Left store.directory)
  | adopting (left : store.program ≠ []) (here : Proceeds store)
      (running : Running Proceeds Indexed store)
  | changing (left : store.program ≠ [])
      (last : store.program.getLast? ≠ some .raiseAnchor)
      (running : Running (fun _ => True) Rested store)

section Runs

variable {store next : Store}

theorem Indexed.left (indexed : Indexed store) : Left store.directory := by
  obtain ⟨cipher, vault, record, view, catalogued⟩ := indexed
  exact .anchored vault cipher record view catalogued.inPlace catalogued.keys catalogued.anchor
    catalogued.current catalogued.catalogue

section

variable (indexing : Indexing store)
include indexing

theorem Indexing.crash (careful : store.KeepsIndex (.protection .crash)) :
    Indexing store.crash := by
  simp only [KeepsIndex, Bool.or_eq_true, List.isEmpty_iff, Bool.and_eq_true] at careful
  cases indexing with
  | rested idle rest =>
    rcases rest with indexed | ⟨view, rest⟩
    · exact .locked rfl rfl indexed.left
    · exact .rested rfl (.inr ⟨view, { rest with cipher := rfl, binding := rfl, building := rfl }⟩)
  | locked idle _ rest => exact .locked rfl rfl rest
  | adopting left here running =>
    obtain ⟨adopting, twinned⟩ := careful.resolve_left left
    have unanchored : store.unanchored := by
      unfold Store.adopting at adopting
      split at adopting
      · exact adopting
      · cases adopting
    exact .locked rfl rfl ((here unanchored).left twinned)
  | changing left last running =>
    obtain ⟨adopting, _⟩ := careful.resolve_left left
    unfold Store.adopting at adopting
    split at adopting
    next raised => exact absurd raised last
    next => cases adopting

theorem Indexing.write (ran : store.step .write = some next) : Indexing next := by
  cases indexing with
  | rested idle rest | locked idle _ rest => simp [step, idle] at ran
  | adopting left _ running =>
    obtain ⟨safe, runs, _, _⟩ := running.write ran
    by_cases idle : next.program = []
    · exact .rested idle (.inl (runs.ended idle))
    · exact .adopting idle safe runs
  | changing left last running =>
    obtain ⟨_, runs, left, tail⟩ := running.write ran
    by_cases idle : next.program = []
    · exact .rested idle (runs.ended idle)
    refine .changing idle ?_ runs
    rw [getLast?_of_tail left tail idle]
    exact last

theorem Indexing.unlock (idle : store.program = []) (inPlace : store.directory.vault = some vault) :
    Indexing (store.unlock vault) := by
  have left : Left store.directory := by
    cases indexing with
    | rested _ rest =>
      rcases rest with indexed | ⟨_, rest⟩
      · exact indexed.left
      · exact absurd (rest.bare.symm.trans inPlace) nofun
    | locked _ _ rest => exact rest
    | adopting left | changing left => exact absurd idle left
  obtain ⟨here, final, passes, ended⟩ := unlock_indexes left inPlace
  refine .adopting (fun none => ?_) here ⟨final, passes, ended⟩
  have last : (store.unlock vault).program.getLast? = some .raiseAnchor := by
    rw [Store.unlock, getLast?_append, getLast?_loadGenerations]
    rfl
  rw [none] at last
  cases last

theorem Indexing.change (idle : store.program = []) (change : Change) :
    Indexing ((store.change change).getD store) := by
  cases indexing with
  | adopting left | changing left => exact absurd idle left
  | locked _ out rest =>
    have unchanged : store.change change = none := by
      cases rest <;> cases change <;> simp [Store.change, *]
    rw [unchanged]
    exact .locked idle out rest
  | rested _ rest =>
    have still : Indexing store := .rested idle rest
    rcases rest with ⟨cipher, vault, record, view, catalogued⟩ | ⟨view, rest⟩
    · have rotate : ∀ kind, Indexing (store.rotateKey cipher kind) := fun kind => by
        obtain ⟨final, passes, ended⟩ := rotateKey_indexes catalogued kind
        refine .changing (by rintro ⟨⟩) ?_ ⟨final, passes, .inl ended⟩
        simp only [rotateKey]
        rw [← cons_append, getLast?_append]
        simp
      have remove : Indexing (store.removeProtection cipher) := by
        obtain ⟨final, passes, ended⟩ := removeProtection_bares catalogued
        refine .changing (by simp [removeProtection]) ?_ ⟨final, passes, .inr ended⟩
        simp [removeProtection]
      have addSlot : Indexing { store with program := [.writeVault vault cipher] } := by
        refine .changing (by simp) (by simp) ⟨_, ⟨_, rfl, trivial, rfl⟩, .inl ?_⟩
        exact ⟨cipher, vault, record, view,
          { catalogued with
            inPlace := rfl
            unlocked := rfl
            catalogue := { catalogued.catalogue with } }⟩
      cases change <;>
        simp only [Store.change, catalogued.inPlace, catalogued.unlocked] <;>
        (repeat' split) <;>
        first | exact still | exact remove | exact rotate _ | simpa [catalogued.unlocked] using addSlot
    have protect : ∀ kind, Indexing (store.protect kind) := fun kind => by
      obtain ⟨final, passes, ended⟩ := protect_indexes rest kind
      refine .adopting (by rintro ⟨⟩) (fun unanchored => ?_) ⟨final, passes, ended⟩
      have bare : (store.protect kind).directory.vault = none := rest.bare
      simp [Store.unanchored, bare] at unanchored
    cases change <;> simp only [Store.change, rest.bare] <;>
      first | exact still | exact protect _

end

theorem persist_program (store : Store) (record : Record) :
    (store.persist record).1.program = store.program := by
  let noted := { store with binding := .bound record, building := some record }
  have kept := (execute_frame
    (show noted.execute .keepPrevious = .ok noted.keepPrevious from rfl)).2
  have written := (execute_frame
    (show noted.keepPrevious.execute .writeRecord = .ok noted.keepPrevious.writeRecord from rfl)).2
  unfold persist
  dsimp only
  split
  next next raised =>
    have anchored : noted.keepPrevious.writeRecord.execute .raiseAnchor = .ok next := raised
    exact ((execute_frame anchored).2.trans written).trans kept
  next => exact written.trans kept

theorem noteHistoryWrite_program (store : Store) (name : LogName) (chat : Conversation) :
    (store.noteHistoryWrite name chat).1.program = store.program := by
  unfold noteHistoryWrite
  split
  · exact persist_program ..
  · rfl

theorem forgetHistoryFile_program (store : Store) (name : LogName) :
    (store.forgetHistoryFile name).1.program = store.program := by
  unfold forgetHistoryFile
  split
  · exact persist_program ..
  · rfl

theorem appendHistoryLine_program (store : Store) (chat : Conversation) (line : Text) :
    (store.appendHistoryLine chat line).1.program = store.program := by
  unfold appendHistoryLine
  dsimp only
  repeat' split
  · rfl
  · rfl
  · exact noteHistoryWrite_program ..

theorem removeMessages_program
    (json : LineJson) (store : Store) (chat : Conversation) (ids : List String) :
    (store.removeMessages json chat ids).1.program = store.program := by
  unfold removeMessages writeHistoryLines
  dsimp only
  repeat' split
  · rfl
  · rfl
  · rfl
  · exact noteHistoryWrite_program ..
  · rfl

theorem migrateHistory_program (store : Store) (old new : UserId) :
    (store.migrateHistory old new).1.program = store.program := by
  unfold migrateHistory
  dsimp only
  split
  · rfl
  split
  · rfl
  split
  · rfl
  split
  · rfl
  have forgetting := fun disk =>
    forgetHistoryFile_program (store.withDirectory disk) (store.historyFile (.contact old))
  split
  next done =>
    rw [noteHistoryWrite_program]
    exact (congrArg (fun outcome => outcome.1.program) done).symm.trans (forgetting _)
  next => exact forgetting _

theorem locked_of_left (left : Left store.directory) (out : store.cipher = none) :
    store.locked = true := by
  cases left <;> simp [locked, *]

theorem removeMessages_of_locked (locked : store.locked = true)
    (json : LineJson) (chat : Conversation) (ids : List String) :
    (store.removeMessages json chat ids).1 = store := by
  unfold removeMessages
  dsimp only
  split
  · rfl
  have refused : store.readHistoryLines (store.historyFile chat) = .error .locked := by
    simp [readHistoryLines, locked]
  rw [refused]

theorem Indexing.whole
    {after : Store} (indexing : Indexing store) (ran : store.whole after = some next)
    (same : after.program = store.program) (rests : Rested store → Rested after)
    (unwritten : store.locked = true → after = store) :
    Indexing next := by
  cases program : store.program with
  | cons _ rest => simp [Store.whole, program] at ran
  | nil =>
    simp only [Store.whole, program, some.injEq] at ran
    subst ran
    cases indexing with
    | rested idle rest => exact .rested (same.trans idle) (rests rest)
    | locked idle out rest =>
      rw [unwritten (locked_of_left rest out)]
      exact .locked idle out rest
    | adopting left | changing left => exact absurd program left

theorem Indexing.reset (indexing : Indexing store) (careful : store.twinned)
    (ran : store.whole store.resetRollbackProtection = some next) :
    Indexing next := by
  cases program : store.program with
  | cons _ rest => simp [Store.whole, program] at ran
  | nil =>
    simp only [Store.whole, program, some.injEq] at ran
    subst ran
    have refused : store.cipher = none → store.resetRollbackProtection = store := fun none => by
      simp [resetRollbackProtection, none]
    cases indexing with
    | locked idle out rest =>
      rw [refused out]
      exact .locked idle out rest
    | adopting left | changing left => exact absurd program left
    | rested idle rest =>
      rcases rest with ⟨cipher, _, _, view, catalogued⟩ | ⟨view, rest⟩
      · obtain ⟨here, final, passes, ended⟩ := resetRollbackProtection_indexes catalogued careful
        refine .adopting ?_ here ⟨final, passes, ended⟩
        simp [resetRollbackProtection, catalogued.unlocked, catalogued.inPlace,
          Directory.adoptGenerations]
      rw [refused rest.cipher]
      exact .rested idle (.inr ⟨view, rest⟩)

theorem Indexing.operate (indexing : Indexing store)
    (careful : store.KeepsIndex act) (ran : store.operate json act = some next) :
    Indexing next := by
  cases act with
  | appendHistoryLine chat line =>
    refine indexing.whole ran (appendHistoryLine_program ..)
      (fun rest => rest.appendHistoryLine chat line) fun locked => ?_
    simp [appendHistoryLine, locked]
  | removeMessages chat ids =>
    exact indexing.whole ran (removeMessages_program ..)
      (fun rest => rest.removeMessages json chat ids)
      fun locked => removeMessages_of_locked locked json chat ids
  | migrateHistory old new =>
    refine indexing.whole ran (migrateHistory_program ..)
      (fun rest => rest.migrateHistory old new) fun locked => ?_
    simp [migrateHistory, locked]
  | resetRollbackProtection => exact indexing.reset careful ran
  | protection action =>
    cases action with
    | write => exact indexing.write ran
    | fail => exact careful.elim
    | crash =>
      cases ran
      exact indexing.crash careful
    | change change =>
      cases program : store.program with
      | nil =>
        simp only [Store.operate, Store.step, program, some.injEq] at ran
        exact ran ▸ indexing.change program change
      | cons instruction rest => simp [Store.operate, Store.step, program] at ran
    | unlock =>
      cases program : store.program with
      | nil =>
        cases inPlace : store.directory.vault with
        | none => simp [Store.operate, Store.step, program, inPlace] at ran
        | some vault =>
          simp only [Store.operate, Store.step, program, inPlace, some.injEq] at ran
          exact ran ▸ indexing.unlock program inPlace
      | cons instruction rest => simp [Store.operate, Store.step, program] at ran

theorem Rested.conversations (rested : Rested store) :
    ∀ name ∈ store.directory.logs, name.conversation ∈ store.conversations := by
  intro name mem
  rcases rested with ⟨_, _, record, view, catalogued⟩ | ⟨view, rest⟩
  · obtain ⟨entry, entered, whose⟩ := catalogued.catalogue.index name
      ((mem_logs_of_seen catalogued.catalogue.shown).mp mem)
    have listed := AList.mem_lookup_iff.mp entered
    simp only [Store.conversations, catalogued.bound, Binding.record, Record.conversations]
    exact mem_map.mpr ⟨_, listed, whose⟩
  cases name with
  | mac naming chat => exact absurd (rest.named naming chat) ((mem_logs_of_seen rest.shown).mp mem)
  | plain chat =>
    simp only [Store.conversations, rest.binding, Binding.record]
    exact mem_filterMap.mpr ⟨_, mem, rfl⟩

/-- From a protected directory, through unlocks, adoptions, protection changes and
writes to the logs that keep the index, a store that is not locked and has no operation
under way lists the conversation of every log there is. -/
theorem conversations_complete
    {json : LineJson} {final : Store} {operations : List Operation} (left : Left store.directory)
    (out : store.cipher = none) (idle : store.program = [])
    (careful : EachState (operate json) KeepsIndex store operations)
    (ended : run (operate json) store operations = some final) (still : final.program = [])
    (unlocked : final.locked = false) :
    ∀ name ∈ final.directory.logs, name.conversation ∈ final.conversations := by
  have indexing : Indexing final := careful.run_keeps (.locked idle out left)
    (fun _ _ _ phase met stepped => phase.operate met stepped) ended
  cases indexing with
  | rested _ rest => exact rest.conversations
  | locked _ out rest => simp [locked_of_left rest out] at unlocked
  | adopting left | changing left => exact absurd still left

end Runs

end Store

def Vault.unrecorded : Vault :=
  { kind := .keystore, key := 0, previous := none, naming := some 1, stateGeneration := none }

def Directory.unrecorded : Directory :=
  ((({ vault := some .unrecorded, contents := ∅ } : Directory).write (.file .identity)
      [.sealed 0 (.file .identity) (.bytes none [7])]).write (.log (.plain (.group [])))
      [.sealed 0 (.log (.plain (.group []))) (.text ['x'])]).write (.log (.plain (.group [1])))
      [.sealed 0 (.log (.plain (.group [1]))) (.text ['y'])]

namespace Store

theorem left_unrecorded : Left .unrecorded := by
  let cipher := Vault.unrecorded.unwrap 0
  have empty : Directory.Shows (some cipher) { vault := some .unrecorded, contents := ∅ }
      fun _ => none := fun item _ => .of_none rfl rfl
  have file : [sealed 0 (.file .identity) (.bytes none [7])].mapM
      (opens (some cipher) (.file .identity)) = some [.bytes none [7]] := rfl
  have first : [sealed 0 (.log (.plain (.group []))) (.text ['x'])].mapM
      (opens (some cipher) (.log (.plain (.group [])))) = some [.text ['x']] := rfl
  have second : [sealed 0 (.log (.plain (.group [1]))) (.text ['y'])].mapM
      (opens (some cipher) (.log (.plain (.group [1])))) = some [.text ['y']] := rfl
  have nothing : View.Legible fun _ => none :=
    ⟨⟨fun _ => none, fun _ => none, fun _ => none⟩, fun _ => ⟨none, rfl⟩, fun _ => ⟨none, rfl⟩,
      nofun⟩
  have identity : View.Legible
      (update (fun _ => none) (.file .identity) (some [.bytes none [7]])) := by
    obtain ⟨held, keeps⟩ := nothing
    refine ⟨{ held with files := update held.files .identity (some [7]) },
      fun name => ?_, fun name => ?_, fun name payloads seen => ?_⟩
    · obtain ⟨generation, seen⟩ := keeps.files name
      by_cases same : name = .identity
      · exact ⟨none, by simp [same]⟩
      · exact ⟨generation, by simpa [same] using seen⟩
    · simpa using keeps.downloads name
    · simp at seen
  refine .unanchored .unrecorded cipher _ rfl (Vault.yields_unwrap rfl 0) rfl
    (((empty.write file).write first).write second)
    ((identity.update_log (.plain (.group [])) (some [['x']])).update_log (.plain (.group [1]))
      (some [['y']])) fun naming chat seen => ?_
  simp at seen

def indexKept : List Operation :=
  .protection .unlock :: List.replicate 16 (.protection .write) ++
    [.protection .crash, .protection .unlock] ++ List.replicate 23 (.protection .write) ++
    [.appendHistoryLine (.group [2]) ['z'], .removeMessages (.group []) ["a"],
      .protection (.change .removeProtection)] ++ List.replicate 24 (.protection .write)

def blankJson : LineJson :=
  { toText := fun _ => [], fromText := fun _ => none }

theorem conversations_complete_unrecorded :
    ∃ final, run (operate blankJson) (opened .unrecorded 2) indexKept = some final ∧
      ∀ name ∈ final.directory.logs, name.conversation ∈ final.conversations := by
  have careful : EachState (operate blankJson) KeepsIndex (opened .unrecorded 2) indexKept := by
    decide +kernel
  exact ⟨_, rfl, conversations_complete left_unrecorded rfl rfl careful rfl rfl rfl⟩

def movedAndCrashed : List Operation :=
  .protection .unlock :: List.replicate 17 (.protection .write) ++
    [.protection .crash, .protection .unlock] ++ List.replicate 21 (.protection .write)

/-- The conversation of that log is not listed. -/
theorem conversation_unlisted_after_crash : Left Directory.unrecorded ∧
      ∃ final, run (operate blankJson) (opened .unrecorded 2) movedAndCrashed = some final ∧
        final.program = [] ∧ final.locked = false ∧
        .mac 1 (.group [1]) ∈ final.directory.logs ∧ .group [1] ∉ final.conversations :=
  ⟨left_unrecorded, _, rfl, rfl, rfl, by decide, by decide⟩

end Store

end Silver.Client.Protection
