import Silver.Client.Protection.Adopting

/-!
# A directory going back to plaintext

Every file is rewritten in the clear and every log goes back to the plain name of
its conversation; nothing is left for a key to open.
-/

namespace Silver.Client.Protection

open Foundation Directory List
open Function (update update_self update_of_ne)

def bares (payloads : List Payload) : List Payload :=
  payloads.map Payload.bare

namespace Directory

theorem decrypted_of_showsAt {disk : Directory} {view : View} {item : Item}
    (shown : disk.ShowsAt (some cipher) view item) :
    ∃ after payloads, disk.recrypted (some cipher) none item = some after ∧
      after.vault = disk.vault ∧
      (∀ other, other ≠ item -> after.read other = disk.read other) ∧
      after.ShowsAt none (update view item payloads) item ∧
      payloads.map bares = (view item).map bares := by
  rcases shown.cases with ⟨missing, unseen⟩ | ⟨cells, payloads, found, opened, seen⟩
  · refine ⟨disk, none, by simp [recrypted, missing], rfl, fun _ _ => rfl,
      .of_none missing (by simp), by simp [unseen]⟩
  have twice : bares (bares payloads) = bares payloads := by
    simp only [bares, map_map]
    refine map_congr_left fun payload _ => ?_
    cases payload <;> rfl
  by_cases clear : (∃ name, item = .download name) ∧ cells.all Cell.isPlain
  · obtain ⟨⟨name, rfl⟩, clear⟩ := clear
    refine ⟨disk, some payloads, ?_, rfl, fun _ _ => rfl,
      .of_some found ?_ (update_self ..), by simp [seen]⟩
    · simp [recrypted, found, clear]
    rw [← opened]
    exact mapM_opens_plain _ _ clear
  refine ⟨disk.write item (payloads.map (Cell.encode none item)), some (bares payloads),
    ?_, rfl, fun other apart => read_write_of_ne apart,
    .of_some (read_write_self ..) (mapM_opens_bare none item payloads)
      (update_self ..), by simp [seen, twice]⟩
  cases item with
  | download name =>
    have mixed : ¬cells.all Cell.isPlain := fun all => clear ⟨⟨name, rfl⟩, all⟩
    simp only [recrypted, found, mixed, opened]
    rfl
  | file name | state | statePrevious | log name => simp [recrypted, found, opened]

end Directory

namespace View

theorem Keeps.update_bares
    {view : View} {holdings : Holdings} {item : Item} {payloads : Option (List Payload)}
    (keeps : view.Keeps holdings) (notLog : ∀ name, item ≠ .log name)
    (same : payloads.map bares = (view item).map bares) :
    Keeps (update view item payloads) holdings := by
  have bytes : ∀ (held : Option (List UInt8)) (age : Option Nat),
      view item = held.map (fun data => [.bytes age data]) ->
      ∃ found, payloads = held.map fun data => [.bytes found data] := by
    intro held age seen
    rw [seen] at same
    cases held with
    | none => exact ⟨none, by simpa using same⟩
    | some data =>
      obtain ⟨list, rfl, equal⟩ := Option.map_eq_some_iff.mp same
      obtain ⟨payload, rfl, bare⟩ : ∃ payload, list = [payload] ∧ payload.bare = .bytes none data := by
        simpa [bares, map_eq_singleton_iff, Payload.bare] using equal
      cases payload with
      | bytes found =>
        cases bare
        exact ⟨found, rfl⟩
      | record record | text text => cases bare
  refine ⟨fun name => ?_, fun name => ?_, fun name lines seen => ?_⟩
  · obtain ⟨age, seen⟩ := keeps.files name
    by_cases equal : Item.file name = item
    · subst equal
      simpa using bytes _ age seen
    · exact ⟨age, by rw [update_of_ne equal, seen]⟩
  · obtain ⟨age, seen⟩ := keeps.downloads name
    by_cases equal : Item.download name = item
    · subst equal
      simpa using bytes _ age seen
    · exact ⟨age, by rw [update_of_ne equal, seen]⟩
  rw [update_of_ne (notLog name).symm] at seen
  exact keeps.texts name lines seen

end View

namespace Store

/-- A directory on the way back to plaintext, with the files still to be visited. -/
structure Removing (store : Store) (cipher : Cipher) (start : View) (holdings : Holdings)
    (left : List Item) (directory : Directory) (view : View) : Prop where
  vault : directory.vault = store.directory.vault
  shown : ∀ item ∈ left, directory.ShowsAt (some cipher) view item
  clear : ∀ item, item ∉ left -> item ≠ .statePrevious -> directory.ShowsAt none view item
  keeps : view.Keeps holdings
  same : ∀ item ∈ left, view item = start item
  plain : ∀ conversation, view (.log (.plain conversation)) = none ∨
    ∃ naming, view (.log (.plain conversation)) = start (.log (.mac naming conversation))
  mac : ∀ naming conversation, .log (.mac naming conversation) ∉ left ->
    view (.log (.mac naming conversation)) = none
  moved : ∀ naming conversation, start (.log (.mac naming conversation)) ≠ none ->
    .log (.mac naming conversation) ∉ left -> view (.log (.plain conversation)) ≠ none
  named : ∀ conversation, .log (.plain conversation) ∉ left
  previous : .state ∉ left -> directory.read .statePrevious = none

section Steps

variable {cipher : Cipher}
variable {disk : Directory}

theorem Removing.item
    {item : Item} (once : item ∉ left) (walked : item ≠ .statePrevious ∧ item ≠ .state)
    (notLog : ∀ name, item ≠ .log name)
    (removing : Removing store cipher start holdings (item :: left) disk view) :
    ∃ after seen, disk.recrypted (some cipher) none item = some after ∧
      Removing store cipher start holdings left after seen := by
  obtain ⟨after, payloads, done, vault, others, shownNow, same⟩ :=
    decrypted_of_showsAt (removing.shown item (.head _))
  refine ⟨after, update view item payloads, done, ?_⟩
  exact
    { vault := vault.trans removing.vault
      shown := fun other mem => by
        have apart : other ≠ item := fun equal => once (equal ▸ mem)
        exact ((removing.shown other (.tail _ mem)).congr
          (others other apart)).update apart _
      clear := fun other outside walked => by
        by_cases equal : other = item
        · exact equal ▸ shownNow
        exact ((removing.clear other (by simp [equal, outside]) walked).congr
          (others other equal)).update equal _
      keeps := removing.keeps.update_bares notLog same
      same := fun other mem => by
        have apart : other ≠ item := fun equal => once (equal ▸ mem)
        rw [update_of_ne apart]
        exact removing.same other (.tail _ mem)
      plain := fun chat => by
        rw [update_of_ne (notLog _).symm]
        exact removing.plain chat
      mac := fun naming chat outside => by
        rw [update_of_ne (notLog _).symm]
        exact removing.mac naming chat (by simp [outside, (notLog _).symm])
      moved := fun naming chat before outside => by
        rw [update_of_ne (notLog _).symm]
        exact removing.moved naming chat before (by simp [outside, (notLog _).symm])
      named := fun chat mem => removing.named chat (.tail _ mem)
      previous := fun outside => by
        rw [others _ walked.1.symm]
        exact removing.previous (by simp [outside, walked.2.symm]) }

theorem Removing.record (once : .state ∉ left) (others : ∀ item ∈ left, item ≠ .statePrevious)
    (removing : Removing store cipher start holdings (.state :: left) disk view) :
    Removing store cipher start holdings left
      ((disk.remove .state).remove .statePrevious) (update view .state none) where
  vault := removing.vault
  shown item mem := by
    have apart : item ≠ .state := fun equal => once (equal ▸ mem)
    refine ((removing.shown item (.tail _ mem)).congr ?_).update apart _
    rw [read_remove_of_ne (others item mem), read_remove_of_ne apart]
  clear item outside walked := by
    by_cases equal : item = .state
    · subst equal
      refine .of_none ?_ rfl
      rw [read_remove_of_ne walked, read_remove_self]
    refine ((removing.clear item (by simp [equal, outside]) walked).congr ?_).update equal _
    rw [read_remove_of_ne walked, read_remove_of_ne equal]
  keeps := by
    refine ⟨fun name => ?_, fun name => ?_, fun name payloads seen => ?_⟩
    · simpa using removing.keeps.files name
    · simpa using removing.keeps.downloads name
    · exact removing.keeps.texts name payloads seen
  same item mem := by
    have apart : item ≠ .state := fun equal => once (equal ▸ mem)
    rw [update_of_ne apart]
    exact removing.same item (.tail _ mem)
  plain chat := by simpa using removing.plain chat
  mac naming chat outside := by
    simpa using removing.mac naming chat (by simpa using outside)
  moved naming chat before outside := by
    simpa using removing.moved naming chat before (by simpa using outside)
  named chat mem := removing.named chat (.tail _ mem)
  previous _ := read_remove_self ..

/-- A log put in the clear under the plain name of its conversation, and taken away
from the one it was under. -/
theorem Removing.log {chat : Conversation} (once : .log (.mac naming chat) ∉ left)
    (present : start (.log (.mac naming chat)) ≠ none)
    (removing : Removing store cipher start holdings (.log (.mac naming chat) :: left) disk view) :
    ∃ written bytes seen,
      disk.copyLog (some cipher) none (.mac naming chat) (.plain chat) = some (written, bytes) ∧
      Removing store cipher start holdings left
        (written.remove (.log (.mac naming chat))) seen := by
  have sameStart := removing.same _ (.head _)
  rcases (removing.shown _ (.head _)).cases with
    ⟨_, unseen⟩ | ⟨cells, _, found, opened, seen⟩
  · exact absurd (sameStart ▸ unseen) present
  obtain ⟨texts, rfl⟩ := removing.keeps.texts _ _ seen
  have bare : bares (texts.map Payload.text) = texts.map Payload.text := by
    simp [bares, Payload.bare, Function.comp_def]
  have clearLines := mapM_opens_bare none (.log (.plain chat)) (texts.map Payload.text)
  rw [← bares, bare] at clearLines
  obtain ⟨bytes, copied⟩ : ∃ bytes, disk.copyLog (some cipher) none (.mac naming chat)
      (.plain chat) = some (disk.write (.log (.plain chat))
        ((texts.map Payload.text).map (Cell.encode none (.log (.plain chat)))), bytes) := by
    simp only [copyLog, found, opened]
    exact ⟨_, rfl⟩
  refine ⟨_, bytes, update (update view (.log (.plain chat))
    (some (texts.map Payload.text))) (.log (.mac naming chat)) none, copied, ?_⟩
  have other : ∀ item, item ≠ .log (.mac naming chat) ->
      item ≠ .log (.plain chat) -> ∀ cells,
      ((disk.write (.log (.plain chat)) cells).remove
        (.log (.mac naming chat))).read item = disk.read item :=
    fun item notMac notPlain cells => by
      rw [read_remove_of_ne notMac, read_write_of_ne notPlain]
  exact
    { vault := removing.vault
      shown := fun item mem => by
        have notMac : item ≠ .log (.mac naming chat) := fun equal => once (equal ▸ mem)
        have notPlain : item ≠ .log (.plain chat) := fun equal =>
          removing.named chat (.tail _ (equal ▸ mem))
        exact (((removing.shown item (.tail _ mem)).congr
          (other item notMac notPlain _)).update notPlain _).update notMac _
      clear := fun item outside walked => by
        by_cases isMac : item = .log (.mac naming chat)
        · subst isMac
          exact .of_none (read_remove_self ..) (by simp)
        by_cases isPlain : item = .log (.plain chat)
        · subst isPlain
          refine .of_some ?_ clearLines (by simp)
          rw [read_remove_of_ne isMac, read_write_self]
        exact (((removing.clear item (by simp [isMac, outside]) walked).congr
          (other item isMac isPlain _)).update isPlain _).update isMac _
      keeps := (removing.keeps.update_log (.plain chat) (some texts)).update_log
        (.mac naming chat) none
      same := fun item mem => by
        have notMac : item ≠ .log (.mac naming chat) := fun equal => once (equal ▸ mem)
        have notPlain : item ≠ .log (.plain chat) := fun equal =>
          removing.named chat (.tail _ (equal ▸ mem))
        rw [update_of_ne notMac, update_of_ne notPlain]
        exact removing.same item (.tail _ mem)
      plain := fun chosen => by
        by_cases equal : chosen = chat
        · subst equal
          exact .inr ⟨naming, by simp [← sameStart, seen]⟩
        · simpa [equal] using removing.plain chosen
      mac := fun key chosen outside => by
        by_cases equal : LogName.mac key chosen = .mac naming chat
        · simp [equal]
        · simpa [equal] using removing.mac key chosen (by simpa [equal] using outside)
      moved := fun key chosen before outside => by
        by_cases equal : chosen = chat
        · subst equal
          simp
        have apart : LogName.mac key chosen ≠ .mac naming chat :=
          fun same => equal (LogName.mac.inj same).2
        simpa [equal] using removing.moved key chosen before (by simpa [apart] using outside)
      named := fun chosen mem => removing.named chosen (.tail _ mem)
      previous := fun outside => by
        rw [other .statePrevious (by simp) (by simp)]
        exact removing.previous (by simpa using outside) }

end Steps

/-- A directory that is in the clear again. -/
structure Cleared (start : View) (holdings : Holdings) (directory : Directory) (view : View) :
    Prop where
  shown : directory.Shows none view
  keeps : view.Keeps holdings
  previous : directory.read .statePrevious = none
  plain : ∀ conversation, view (.log (.plain conversation)) = none ∨
    ∃ naming, view (.log (.plain conversation)) = start (.log (.mac naming conversation))
  mac : ∀ naming conversation, view (.log (.mac naming conversation)) = none
  moved : ∀ naming conversation, start (.log (.mac naming conversation)) ≠ none ->
    view (.log (.plain conversation)) ≠ none

/-- Where the index names every log, the protection goes and leaves everything in
the clear, each log under the plain name of its conversation. -/
theorem decryptAll_passes
    {store : Store} {cipher : Cipher} {record : Record} {start : View} {holdings : Holdings}
    (shown : store.directory.Shows (some cipher) start) (keeps : start.Keeps holdings)
    (recorded : (store.directory.read .state).isSome)
    (named : ∀ chat, start (.log (.plain chat)) = none)
    (indexed : ∀ name, start (.log name) ≠ none ->
      ∃ entry, record.history.lookup name = some entry ∧ entry.conversation = name.conversation) :
    ∃ disk view, Passes execute (fun _ => True)
        (store.directory.decryptAll cipher (some record) ++ [.removeVault]) store
        { store with directory := disk, binding := .unbound } ∧
      disk.vault = none ∧ Cleared start holdings disk view := by
  let invariant := fun left after =>
    left.Nodup ∧ (∀ item ∈ left, item ≠ .statePrevious) ∧
      (∀ name, .log name ∈ left -> start (.log name) ≠ none) ∧
      ∃ disk view binding, after = { store with directory := disk, binding } ∧
        Removing store cipher start holdings left disk view ∧
        (.state ∉ left -> binding = .unbound)
  have visited : ∀ name, .log name ∈ store.directory.walkedItems -> start (.log name) ≠ none := by
    intro name mem
    have found : (store.directory.read (.log name)).isSome := by
      simpa [walkedItems, mem_logs] using mem
    rcases (shown (.log name) (by simp)).cases with ⟨missing, _⟩ | ⟨_, _, _, _, seen⟩
    · simp [missing] at found
    · simp [seen]
  have unvisited : ∀ item, item ≠ .statePrevious -> item ∉ store.directory.walkedItems ->
      start item = none := by
    intro item walked outside
    rcases (shown item walked).cases with ⟨_, unseen⟩ | ⟨_, _, found, _⟩
    · exact unseen
    · exact absurd (mem_walkedItems walked (by simp [found])) outside
  have started : invariant store.directory.walkedItems store := by
    refine ⟨store.directory.nodup_walkedItems, fun item => ne_statePrevious_of_mem,
      visited, store.directory, start, store.binding, rfl, ?_, fun outside => ?_⟩
    · exact
        { vault := rfl
          shown := fun item mem => shown item (ne_statePrevious_of_mem mem)
          clear := fun item outside walked => by
            rcases (shown item walked).cases with ⟨missing, unseen⟩ | ⟨_, _, _, _, seen⟩
            · exact .of_none missing unseen
            · simp [unvisited item walked outside] at seen
          keeps
          same := fun _ _ => rfl
          plain := fun chat => .inl (named chat)
          mac := fun naming chat => unvisited _ (by simp)
          moved := fun naming chat before outside =>
            absurd (unvisited (.log (.mac naming chat)) (by simp) outside) before
          named := fun chat mem => visited _ mem (named chat)
          previous := fun outside =>
            absurd (by simp [walkedItems] : Item.state ∈ store.directory.walkedItems) outside }
    exact absurd (by simp [walkedItems] : Item.state ∈ store.directory.walkedItems) outside
  obtain ⟨cleared, passes, _, _, _, disk, view, binding, rfl, removing, unbound⟩ :
      ∃ cleared, Passes execute (fun _ => True) (store.directory.decryptAll cipher (some record))
        store cleared ∧ invariant [] cleared := by
    refine Passes.flatMap invariant ?_ started
    rintro item left _ ⟨nodup, walked, present, disk, view, binding, rfl, removing, unbound⟩
    obtain ⟨once, later⟩ := nodup_cons.mp nodup
    have rest : (∀ other ∈ left, other ≠ .statePrevious) ∧
        ∀ name, .log name ∈ left -> start (.log name) ≠ none :=
      ⟨fun other mem => walked other (.tail _ mem),
        fun name mem => present name (.tail _ mem)⟩
    cases item with
    | statePrevious => exact absurd rfl (walked _ (.head _))
    | file name | download name =>
      obtain ⟨after, seen, done, kept⟩ := removing.item once ⟨(by simp), (by simp)⟩ (by simp)
      refine ⟨_, ⟨{ store with directory := after, binding }, ?_, trivial, rfl⟩, later, rest.1,
        rest.2, after, seen, binding, rfl, kept, fun outside => unbound (by simpa using outside)⟩
      simp [execute, done, withDirectory]
    | state =>
      have kept := removing.record once rest.1
      refine ⟨{ store with
        directory := (disk.remove .state).remove .statePrevious, binding := .unbound }, ?_,
        later, rest.1, rest.2, _, _, _, rfl, kept, fun _ => rfl⟩
      simp only [decryptItem, recorded, ↓reduceIte]
      refine ⟨{ store with directory := disk.remove .state, binding }, ?_, trivial, _, rfl,
        trivial, _, rfl, trivial, rfl⟩
      rcases (removing.shown _ (.head _)).cases with
        ⟨_, unseen⟩ | ⟨_, _, found, opened, _⟩
      · rw [removing.same _ (.head _)] at unseen
        rcases (shown .state (by simp)).cases with ⟨missing, _⟩ | ⟨_, _, _, _, seen⟩
        · simp [missing] at recorded
        · simp [seen] at unseen
      · simp [execute, found, opened, withDirectory]
    | log name =>
      have here := present name (.head _)
      obtain ⟨entry, entered, whose⟩ := indexed name here
      cases name with
      | plain chat => exact absurd (named chat) here
      | mac naming chat =>
        obtain ⟨written, _, seen, copied, kept⟩ := removing.log once here
        refine ⟨{ store with directory := written.remove (.log (.mac naming chat)), binding }, ?_,
          later, rest.1, rest.2, _, seen, binding, rfl, kept,
          fun outside => unbound (by simpa using outside)⟩
        have instructions : decryptItem cipher
            (store.directory.read .state).isSome (some record)
            (.log (.mac naming chat)) =
            [.moveLog (some cipher) (.mac naming chat) chat,
              .remove (.log (.mac naming chat))] := by
          simp [decryptItem, entered, whose, LogName.conversation]
        rw [instructions]
        refine ⟨{ store with directory := written, binding }, ?_, trivial, _, rfl, trivial, rfl⟩
        simp [execute, copied, withDirectory]
  obtain rfl := unbound not_mem_nil
  refine ⟨{ disk with vault := none }, view, ?_, rfl, ?_⟩
  · exact passes.append ⟨_, rfl, trivial, rfl⟩
  exact
    { removing with
      shown := fun item walked => removing.clear item not_mem_nil walked
      previous := removing.previous not_mem_nil
      mac := fun naming chat => removing.mac naming chat not_mem_nil
      moved := fun naming chat before => removing.moved naming chat before not_mem_nil }

end Store

end Silver.Client.Protection
