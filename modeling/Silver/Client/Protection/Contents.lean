import Silver.Client.Protection.Unlocking

/-!
# What a directory says under the keys at hand

A directory shows a view under a cipher when each file is there exactly when the view has
it and every cell of it opens to what the view says; the copy of the record kept beside it
is left out.  A change of key keeps the view.
-/

namespace Silver.Client.Protection

open Foundation Cell List Option

variable {cells : List Cell}

abbrev View : Type :=
  Item → Option (List Payload)

def Weaker (source target : Option Cipher) : Prop :=
  ∀ cipher ∈ source, ∃ other ∈ target, ∀ key, cipher.opensKey key → other.opensKey key

theorem Weaker.refl (source : Option Cipher) : Weaker source source :=
  fun cipher held => ⟨cipher, held, fun _ => id⟩

theorem Weaker.of_none (target : Option Cipher) : Weaker none target :=
  nofun

theorem Weaker.settled (cipher : Cipher) : Weaker (some cipher.settled) (some cipher) := by
  rintro _ ⟨⟩
  refine ⟨cipher, rfl, fun key opened => ?_⟩
  simp only [Cipher.settled, Cipher.opensKey, Bool.or_eq_true, beq_iff_eq, reduceCtorEq,
    or_false] at opened ⊢
  exact .inl opened

theorem Weaker.rotating (cipher : Cipher) (fresh : Key) (alone : cipher.previous = none) :
    Weaker (some cipher) (some (cipher.rotating fresh)) := by
  rintro _ ⟨⟩
  refine ⟨_, rfl, fun key opened => ?_⟩
  simp only [Cipher.rotating, Cipher.opensKey, alone, Bool.or_eq_true, beq_iff_eq, reduceCtorEq,
    or_false, some.injEq] at opened ⊢
  exact .inr opened.symm

namespace Cell

theorem opens_mono {item : Item} {cell : Cell}
    (weaker : Weaker source target) (opened : cell.opens source item = some payload) :
    cell.opens target item = some payload := by
  cases cell with
  | plain held => exact opened
  | torn => cases opened
  | sealed key _ held =>
    cases source with
    | none => cases opened
    | some cipher =>
      obtain ⟨_, rfl, more⟩ := weaker cipher rfl
      simp only [opens, bind_some, Bool.and_eq_true] at opened ⊢
      split at opened
      next fits => rw [if_pos ⟨more key fits.1, fits.2⟩, opened]
      next => cases opened

theorem opens_encode {cipher target : Cipher} {item : Item} (known : cipher.opensKey target.key) :
    (encode (some target) item payload).opens (some cipher) item = some payload := by
  simp [encode, opens, known]

end Cell

theorem mapM_opens_mono (weaker : Weaker source target)
    (opened : cells.mapM (opens source item) = some payloads) :
    cells.mapM (opens target item) = some payloads := by
  induction cells generalizing payloads with
  | nil => exact opened
  | cons _ cells ih =>
    simp only [mapM_cons, bind_eq_bind, bind_eq_some_iff] at opened ⊢
    obtain ⟨payload, first, others, rest, whole⟩ := opened
    exact ⟨payload, opens_mono weaker first, others, ih rest, whole⟩

theorem opensKey_of_mem {key : Key} (opened : cells.mapM (opens (some cipher) item) = some payloads)
    (mem : .sealed key bound payload ∈ cells) :
    cipher.opensKey key := by
  induction cells generalizing payloads with
  | nil => cases mem
  | cons _ cells ih =>
    simp only [mapM_cons, bind_eq_bind, bind_eq_some_iff] at opened
    obtain ⟨_, firstOpened, _, rest, _⟩ := opened
    rcases mem_cons.mp mem with rfl | later
    · simp only [opens, bind_some] at firstOpened
      split at firstOpened
      next fits =>
        simp only [Bool.and_eq_true] at fits
        exact fits.1
      next => cases firstOpened
    · exact ih rest later

theorem mapM_opens_encode
    {cipher target : Cipher} (known : cipher.opensKey target.key) (payloads : List Payload) :
    (payloads.map (encode (some target) item)).mapM (opens (some cipher) item) = some payloads := by
  induction payloads with
  | nil => rfl
  | cons _ payloads ih => simp [mapM_cons, opens_encode known, ih]

theorem mapM_opens_bare (source : Option Cipher) (item : Item) (payloads : List Payload) :
    (payloads.map (encode none item)).mapM (opens source item) =
      some (payloads.map Payload.bare) := by
  induction payloads with
  | nil => rfl
  | cons _ payloads ih =>
    simp only [map_cons, mapM_cons, ih]
    rfl

theorem mapM_opens_plain (source target : Option Cipher) (clear : cells.all isPlain) :
    cells.mapM (opens source item) = cells.mapM (opens target item) := by
  induction cells with
  | nil => rfl
  | cons cell cells ih =>
    simp only [all_cons, Bool.and_eq_true] at clear
    have same : cell.opens source item = cell.opens target item := by
      cases cell with
      | plain payload => rfl
      | torn | sealed _ _ payload => cases clear.1
    rw [mapM_cons, mapM_cons, same, ih clear.2]

namespace Directory

variable {disk : Directory}

def ShowsAt (source : Option Cipher) (directory : Directory) (view : View) (item : Item) : Prop :=
  (directory.read item).map (List.mapM (Cell.opens source item)) = (view item).map some

def Shows (source : Option Cipher) (directory : Directory) (view : View) : Prop :=
  ∀ item, item ≠ .statePrevious → directory.ShowsAt source view item

theorem ShowsAt.of_none (missing : disk.read item = none) (unseen : view item = none) :
    disk.ShowsAt source view item := by
  simp [ShowsAt, missing, unseen]

theorem ShowsAt.of_some (found : disk.read item = some cells)
    (opened : cells.mapM (opens source item) = some payloads)
    (seen : view item = some payloads) :
    disk.ShowsAt source view item := by
  simp [ShowsAt, found, opened, seen]

theorem ShowsAt.cases (shown : disk.ShowsAt source view item) :
    (disk.read item = none ∧ view item = none) ∨
      ∃ cells payloads, disk.read item = some cells ∧
        cells.mapM (opens source item) = some payloads ∧ view item = some payloads := by
  unfold ShowsAt at shown
  cases found : disk.read item with
  | none =>
    cases seen : view item with
    | none => exact .inl ⟨rfl, rfl⟩
    | some payloads => simp [found, seen] at shown
  | some cells =>
    cases seen : view item with
    | none => simp [found, seen] at shown
    | some payloads =>
      simp only [found, seen, map_some, some.injEq] at shown
      exact .inr ⟨cells, payloads, rfl, shown, rfl⟩

theorem ShowsAt.mono (weaker : Weaker source target) (shown : disk.ShowsAt source view item) :
    disk.ShowsAt target view item := by
  rcases shown.cases with ⟨missing, unseen⟩ | ⟨_, _, found, opened, seen⟩
  · exact .of_none missing unseen
  · exact .of_some found (mapM_opens_mono weaker opened) seen

theorem Shows.mono (weaker : Weaker source target) (shown : disk.Shows source view) :
    disk.Shows target view :=
  fun item other => (shown item other).mono weaker

theorem ShowsAt.congr {other : Directory} (same : other.read item = disk.read item)
    (shown : disk.ShowsAt source view item) :
    other.ShowsAt source view item := by
  unfold ShowsAt at shown ⊢
  rw [same, shown]

theorem ShowsAt.update (shown : disk.ShowsAt source view item)
    (apart : item ≠ other) (payloads : Option (List Payload)) :
    disk.ShowsAt source (Function.update view other payloads) item := by
  unfold ShowsAt at shown ⊢
  rw [shown, Function.update_of_ne apart]

theorem Shows.write {cells : List Cell} (shown : disk.Shows source view)
    (opened : cells.mapM (opens source item) = some payloads) :
    (disk.write item cells).Shows source (Function.update view item (some payloads)) := by
  intro other notPrevious
  by_cases same : other = item
  · subst same
    exact .of_some (read_write_self ..) opened (by simp)
  have kept : (disk.write item cells).read other = disk.read other := read_write_of_ne same
  exact ((shown other notPrevious).congr kept).update same _

theorem Shows.remove (shown : disk.Shows source view) :
    (disk.remove item).Shows source (Function.update view item none) := by
  intro other notPrevious
  by_cases same : other = item
  · subst same
    exact .of_none (read_remove_self ..) (by simp)
  · exact ((shown other notPrevious).congr (read_remove_of_ne same)).update same _

theorem Shows.congr {other : Directory}
    (same : ∀ item, item ≠ .statePrevious → other.read item = disk.read item)
    (shown : disk.Shows source view) :
    other.Shows source view :=
  fun item notPrevious => (shown item notPrevious).congr (same item notPrevious)

def RecodedAt (source : Option Cipher) (target : Cipher) (before after : Directory) (item : Item) :
    Prop :=
  after.read item = before.read item ∨ ∃ cells payloads, before.read item = some cells ∧
      cells.mapM (Cell.opens source item) = some payloads ∧
      after.read item = some (payloads.map (Cell.encode (some target) item))

theorem recrypted_of_showsAt (target : Cipher) (shown : disk.ShowsAt source view item) :
    ∃ after, disk.recrypted source (some target) item = some after ∧
      after.vault = disk.vault ∧
      (∀ other, other ≠ item → after.read other = disk.read other) ∧
      after.ShowsAt (some target.settled) view item ∧
      disk.RecodedAt source target after item := by
  rcases shown.cases with ⟨missing, unseen⟩ | ⟨cells, payloads, found, opened, seen⟩
  · refine ⟨disk, ?_, rfl, fun _ _ => rfl, .of_none missing unseen, .inl rfl⟩
    simp [recrypted, missing]
  have rewritten : (disk.write item
      (payloads.map (encode (some target) item))).ShowsAt (some target.settled) view item :=
    .of_some (read_write_self ..)
      (mapM_opens_encode (by simp [Cipher.settled, Cipher.opensKey]) payloads) seen
  have others : ∀ other, other ≠ item →
      (disk.write item (payloads.map (encode (some target) item))).read other = disk.read other :=
    fun other apart => read_write_of_ne apart
  by_cases clear : (∃ name, item = .download name) ∧ cells.all isPlain
  · obtain ⟨⟨name, rfl⟩, clear⟩ := clear
    refine ⟨disk, ?_, rfl, fun _ _ => rfl, .of_some found ?_ seen, .inl rfl⟩
    · simp only [recrypted, found, clear, ↓reduceIte]
    rw [← opened]
    exact mapM_opens_plain _ _ clear
  refine ⟨disk.write item (payloads.map (encode (some target) item)), ?_, rfl,
    others, rewritten, .inr ⟨cells, payloads, found, opened, read_write_self ..⟩⟩
  cases item with
  | download name =>
    have mixed : ¬cells.all isPlain := fun all => clear ⟨⟨name, rfl⟩, all⟩
    simp only [recrypted, found, mixed, opened]
    rfl
  | file name | state | statePrevious | log name => simp [recrypted, found, opened]

theorem mem_walkedItems (notPrevious : item ≠ .statePrevious) (found : (disk.read item).isSome) :
    item ∈ disk.walkedItems := by
  unfold walkedItems
  cases item with
  | file name => simp [mem_recryptedFiles]
  | state => simp
  | statePrevious => exact absurd rfl notPrevious
  | download name => simp [mem_downloads, found]
  | log name => simp [mem_logs, found]

theorem ne_statePrevious_of_mem (mem : item ∈ disk.walkedItems) : item ≠ .statePrevious := by
  rintro rfl
  simp [walkedItems] at mem

theorem nodup_walkedItems (disk : Directory) : disk.walkedItems.Nodup := by
  have keys : disk.contents.keys.Nodup := disk.contents.nodupKeys
  have downloads : disk.downloads.Nodup := by
    refine keys.filterMap fun first second name named other => ?_
    cases first <;> cases second <;> simp_all
  have logs : disk.logs.Nodup := by
    refine keys.filterMap fun first second name named other => ?_
    cases first <;> cases second <;> simp_all
  have files : recryptedFiles.Nodup := by decide
  simp only [walkedItems, List.nodup_append, List.nodup_singleton, List.mem_map, List.mem_append,
    mem_singleton]
  refine ⟨⟨⟨files.map ?_, trivial, ?_⟩, downloads.map ?_, ?_⟩, logs.map ?_, ?_⟩
  · exact fun _ _ same => Item.file.inj same
  · rintro _ ⟨name, _, rfl⟩ _ rfl
    rintro ⟨⟩
  · exact fun _ _ same => Item.download.inj same
  · rintro _ (⟨name, _, rfl⟩ | rfl) _ ⟨other, _, rfl⟩
    · rintro ⟨⟩
    · rintro ⟨⟩
  · exact fun _ _ same => Item.log.inj same
  rintro _ ((⟨name, _, rfl⟩ | rfl) | ⟨name, _, rfl⟩) _ ⟨other, _, rfl⟩
  · rintro ⟨⟩
  · rintro ⟨⟩
  · rintro ⟨⟩

end Directory

namespace Store

/-- Nothing but files other than the vault has changed: each is as it was or put in
again, and the view is shown. -/
structure Rewritten (store : Store) (source : Option Cipher) (target : Cipher)
    (shownUnder : Option Cipher) (view : View) (directory : Directory) : Prop where
  vault : directory.vault = store.directory.vault
  shown : directory.Shows shownUnder view
  recoded : ∀ item, store.directory.RecodedAt source target directory item
  previous : directory.read .statePrevious = store.directory.read .statePrevious

/-- A change of key on its way, with the files still to be visited. -/
structure Rewriting (store : Store) (source : Option Cipher) (target : Cipher) (view : View)
    (left : List Item) (directory : Directory) : Prop where
  vault : directory.vault = store.directory.vault
  unvisited : ∀ item ∈ left, directory.read item = store.directory.read item
  visited : ∀ item, item ∉ left → item ≠ .statePrevious →
    directory.ShowsAt (some target.settled) view item
  recoded : ∀ item, store.directory.RecodedAt source target directory item
  previous : directory.read .statePrevious = store.directory.read .statePrevious

theorem Rewriting.recrypt {left : List Item} {item : Item} {disk : Directory}
    (shown : store.directory.Shows source view) (once : item ∉ left)
    (notPrevious : item ≠ .statePrevious)
    (rewriting : Rewriting store source target view (item :: left) disk) :
    ∃ after, disk.recrypted source (some target) item = some after ∧
      Rewriting store source target view left after := by
  have same := rewriting.unvisited item (.head _)
  obtain ⟨after, done, vault, others, shownNow, recoded⟩ :=
    Directory.recrypted_of_showsAt target ((shown item notPrevious).congr same)
  refine ⟨after, done, ?_⟩
  exact
    { vault := vault.trans rewriting.vault
      unvisited := fun other mem => by
        have apart : other ≠ item := fun equal => once (equal ▸ mem)
        rw [others other apart]
        exact rewriting.unvisited other (.tail _ mem)
      visited := fun other outside walked => by
        by_cases equal : other = item
        · exact equal ▸ shownNow
        exact (rewriting.visited other (by simp [equal, outside]) walked).congr (others other equal)
      recoded := fun other => by
        by_cases equal : other = item
        · subst equal
          rcases recoded with kept | ⟨cells, payloads, found, opened, written⟩
          · exact .inl (kept.trans same)
          · exact .inr ⟨cells, payloads, same ▸ found, opened, written⟩
        unfold Directory.RecodedAt
        rw [others other equal]
        exact rewriting.recoded other
      previous := by
        rw [others _ notPrevious.symm]
        exact rewriting.previous }

variable {store : Store} (weaker : Weaker source (some target))
  (shown : store.directory.Shows source view)
include weaker shown

theorem Rewriting.rewritten {left : List Item} {disk : Directory}
    (rewriting : Rewriting store source target view left disk) :
    store.Rewritten source target (some target) view disk := by
  refine { rewriting with shown := fun item walked => ?_ }
  by_cases mem : item ∈ left
  · exact ((shown item walked).congr (rewriting.unvisited item mem)).mono weaker
  · exact (rewriting.visited item mem walked).mono (.settled target)

theorem recryptAll_passes {walked : Directory}
    (covers : ∀ item, item ≠ .statePrevious → (store.directory.read item).isSome →
      item ∈ walked.walkedItems)
    (implied : ∀ disk, store.Rewritten source target (some target) view disk →
      safe { store with directory := disk }) :
    ∃ disk, Passes execute safe (walked.recryptAll source target) store
        { store with directory := disk } ∧
      store.Rewritten source target (some target.settled) view disk := by
  let invariant := fun left after =>
    left.Nodup ∧ (∀ item ∈ left, item ≠ .statePrevious) ∧
      ∃ disk, after = { store with directory := disk } ∧
        Rewriting store source target view left disk
  have started : invariant walked.walkedItems store := by
    refine ⟨walked.nodup_walkedItems, fun item => Directory.ne_statePrevious_of_mem,
      store.directory, rfl, ?_⟩
    refine ⟨rfl, fun _ _ => rfl, fun item outside notPrevious => ?_, fun _ => .inl rfl, rfl⟩
    rcases (shown item notPrevious).cases with ⟨missing, unseen⟩ | ⟨_, _, found, _⟩
    · exact .of_none missing unseen
    · exact absurd (covers item notPrevious (by simp [found])) outside
  have program : walked.recryptAll source target =
      walked.walkedItems.flatMap fun item => [.recrypt source (some target) item] :=
    map_eq_flatMap
  rw [program]
  obtain ⟨final, passes, _, _, disk, rfl, rewriting⟩ : ∃ final, Passes execute safe
      (walked.walkedItems.flatMap fun item => [.recrypt source (some target) item]) store final ∧
      invariant [] final := by
    refine Passes.flatMap invariant ?_ started
    rintro item left _ ⟨nodup, notPrevious, disk, rfl, rewriting⟩
    obtain ⟨once, later⟩ := nodup_cons.mp nodup
    obtain ⟨after, done, kept⟩ := rewriting.recrypt shown once (notPrevious item (.head _))
    refine ⟨_, ⟨{ store with directory := after }, by simp [execute, done, withDirectory],
      implied after (kept.rewritten weaker shown), rfl⟩, later,
      fun other mem => notPrevious other (.tail _ mem), after, rfl, kept⟩
  exact ⟨disk, passes, rewriting.vault, fun item notPrevious =>
    rewriting.visited item not_mem_nil notPrevious, rewriting.recoded, rewriting.previous⟩

end Store

end Silver.Client.Protection
