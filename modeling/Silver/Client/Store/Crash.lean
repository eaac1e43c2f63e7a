import Silver.Foundation.Last
import Silver.Client.Store.Adoption
import Silver.Client.Store.Machine

/-!
# Reading back after a crash

A file is written before the record of it, so a crash may leave one file a generation
ahead, which the reader allows and the next write takes.  While that write is of the same
file, and the record itself is not interrupted three times in a row, every file reads back
as it was last written.
-/

namespace Silver.Client

open Foundation Action FileImage Table Machine

theorem FileImage.eq_sealed
    {image : FileImage} {generation : Nat} (carried : image.generation = some generation) :
    image = .sealed (some generation) image.bytes := by
  cases image with
  | plain bytes => cases carried
  | «sealed» sealedAt bytes => rw [show sealedAt = some generation from carried]; rfl

namespace Disk

variable {disk : Disk} {state : State}

def Matches (disk : Disk) (state : State) (name : FileName) : Prop :=
  ∀ image, disk.files.get name = some image -> ∃ generation, image.generation = some generation ∧
      state.files.get name = some generation

def Allows (disk : Disk) (state : State) (name : FileName) : Prop :=
  ∀ image, disk.files.get name = some image -> ∃ generation, image.generation = some generation ∧
      (state.files.get name = some generation ∨ generation = state.generation + 1)

def AheadOf (disk : Disk) (state : State) (name : FileName) : Prop :=
  (disk.files.get name).bind FileImage.generation = some (state.generation + 1)
deriving Decidable

theorem Matches.allows (matched : disk.Matches state name) : disk.Allows state name := by
  intro image held
  obtain ⟨generation, carried, recorded⟩ := matched image held
  exact ⟨generation, carried, .inl recorded⟩

theorem Allows.matches (allowed : disk.Allows state name) (notAhead : ¬ disk.AheadOf state name) :
    disk.Matches state name := by
  intro image held
  obtain ⟨generation, carried, recorded | next⟩ := allowed image held
  · exact ⟨generation, carried, recorded⟩
  · exact absurd (by rw [AheadOf, held, Option.bind_some, carried, next]) notAhead

theorem Allows.readFile (allowed : disk.Allows state name) :
    disk.readFile (.bound state) name = .ok (disk.contents name) := by
  cases held : disk.files.get name with
  | none => simp only [Disk.readFile, contents, held, Option.map_none]
  | some image =>
    obtain ⟨generation, carried, either⟩ := allowed image held
    have shaped : disk.files.get name = some (.sealed (some generation) image.bytes) := by
      rw [held, ← eq_sealed carried]
    rw [contents, held, Option.map_some]
    exact (readFile_bound_eq_ok shaped).mpr ⟨rfl, generation, rfl, either⟩

/-- The record an unlock takes: the one in `state`, or the one kept back when
`state` is two generations past the vault. -/
inductive Stands (disk : Disk) (state : State) : Prop where
  | current {anchor : Nat}
      (held : disk.state = some state)
      (vault : disk.stateGeneration = some anchor)
      (vouched : state.generation = anchor ∨ state.generation = anchor + 1)
  | previous {anchor : Nat} {interrupted : State}
      (held : disk.state = some interrupted)
      (beyond : interrupted.generation = anchor + 2)
      (kept : disk.statePrevious = some state)
      (vault : disk.stateGeneration = some anchor)
      (vouched : state.generation = anchor + 1)

theorem Stands.anchor (stands : disk.Stands state) : ∃ anchor, disk.stateGeneration = some anchor ∧
      (state.generation = anchor ∨ state.generation = anchor + 1) := by
  cases stands with
  | current held vault vouched => exact ⟨_, vault, vouched⟩
  | previous held _ _ vault vouched => exact ⟨_, vault, .inr vouched⟩

theorem Stands.withFiles (stands : disk.Stands state) (files : Table FileName FileImage) :
    { disk with files }.Stands state := by
  cases stands with
  | current held vault vouched => exact .current held vault vouched
  | previous held beyond kept vault vouched => exact .previous held beyond kept vault vouched

theorem Stands.readGenerations
    {anchor : Nat} (stands : disk.Stands state) (vault : disk.stateGeneration = some anchor) :
    disk.readGenerations anchor = .ok state := by
  cases stands with
  | current held vault' vouched =>
    cases vault.symm.trans vault'
    simp [Disk.readGenerations, readRecord, held, vouched]
  | previous held beyond kept vault' vouched =>
    cases vault.symm.trans vault'
    simp [Disk.readGenerations, readRecord, held, beyond, kept, vouched]

/-- A directory that opens with a record: an unlock takes it, and every file is
at a generation it allows. -/
structure Opens (disk : Disk) (state : State) : Prop where
  covers : COVERS_LOG_AND_OUTBOX <= state.covers
  stands : disk.Stands state
  allows : ∀ name, disk.Allows state name

theorem sealStragglers_eq
    (carries : ∀ name image, disk.files.get name = some image -> image.generation ≠ none) :
    disk.sealStragglers = disk := by
  have same : disk.files.map encrypt = disk.files := by
    funext name
    change (disk.files.get name).map encrypt = disk.files.get name
    cases held : disk.files.get name with
    | none => rfl
    | some image =>
      obtain ⟨generation, carried⟩ := Option.ne_none_iff_exists'.mp (carries name image held)
      rw [eq_sealed carried]
      rfl
  rw [sealStragglers, same]

theorem Opens.unlock (opens : disk.Opens state) : disk.unlock = (.bound state, disk) := by
  obtain ⟨anchor, vault, -⟩ := opens.stands.anchor
  have sealedAll : disk.sealStragglers = disk := by
    refine sealStragglers_eq fun name image held => ?_
    obtain ⟨_, carried, -⟩ := opens.allows name image held
    simp [carried]
  simp [Disk.unlock, sealedAll, loadGenerations, vault, opens.stands.readGenerations vault,
    bindUncovered, opens.covers]

/-- A record about to be written: one generation on, with every file as it says. -/
structure Precedes (disk : Disk) (state next : State) : Prop where
  covers : COVERS_LOG_AND_OUTBOX <= next.covers
  generation : next.generation = state.generation + 1
  matched : ∀ name, disk.Matches next name

end Disk

def WithinReach (record : Option State) (anchor : Option Nat) : Prop :=
  match record, anchor with
  | some state, some generation => state.generation <= generation + 1
  | _, _ => True

instance (record : Option State) (anchor : Option Nat) : Decidable (WithinReach record anchor) :=
  match record, anchor with
  | some state, some generation => inferInstanceAs (Decidable (state.generation <= generation + 1))
  | none, _ | some _, none => inferInstanceAs (Decidable True)

namespace Machine

def record (machine : Machine) : Option State :=
  match machine.phase with
  | .unlocked (.bound state) => some state
  | _ => none

def NoneAhead (machine : Machine) (excepted : Option FileName) : Prop :=
  ∀ state ∈ machine.record, ∀ name ∈ recryptedFiles,
    excepted ≠ some name -> ¬ machine.disk.AheadOf state name
deriving Decidable

def Careful (machine : Machine) : Action -> Prop
  | .writeFile name _ => machine.NoneAhead (some name)
  | .noteHistoryWrite _ _ _ => machine.NoneAhead none
  | .forgetHistoryFile _ => machine.NoneAhead none
  | .crash => WithinReach machine.disk.statePrevious machine.disk.stateGeneration
  | .unlock | .clearSessions _ | .persist => True

instance (machine : Machine) : (action : Action) -> Decidable (machine.Careful action)
  | .writeFile name _ => inferInstanceAs (Decidable (machine.NoneAhead (some name)))
  | .noteHistoryWrite _ _ _ | .forgetHistoryFile _ =>
    inferInstanceAs (Decidable (machine.NoneAhead none))
  | .crash => inferInstanceAs (Decidable (WithinReach _ _))
  | .unlock | .clearSessions _ | .persist => inferInstanceAs (Decidable True)

/-- What holds of the directory at every point of a write. -/
def Consistent (machine : Machine) : Prop :=
  match machine.phase with
  | .closed => ∃ state, machine.disk.Opens state
  | .unlocked (.bound state) => machine.disk.Opens state
  | .unlocked _ => False
  | .keeping next => ∃ state, machine.disk.Opens state ∧ machine.disk.Precedes state next
  | .storing next => ∃ state anchor, machine.disk.Precedes state next ∧
      machine.disk.stateGeneration = some anchor ∧
      (state.generation = anchor ∨ state.generation = anchor + 1) ∧
      (WithinReach machine.disk.statePrevious machine.disk.stateGeneration ->
        machine.disk.Opens state ∧ machine.disk.statePrevious = some state)
  | .raising next => ∃ state anchor, machine.disk.Precedes state next ∧
      machine.disk.stateGeneration = some anchor ∧
      (state.generation = anchor ∨ state.generation = anchor + 1) ∧
      machine.disk.state = some next ∧
      (WithinReach machine.disk.statePrevious machine.disk.stateGeneration ->
        COVERS_LOG_AND_OUTBOX <= state.covers ∧ (∀ name, machine.disk.Allows state name) ∧
          machine.disk.statePrevious = some state)

theorem NoneAhead.matches {machine : Machine}
    (none : machine.NoneAhead excepted) (phase : machine.phase = .unlocked (.bound state))
    (allows : ∀ name, machine.disk.Allows state name)
    {name : FileName} (other : excepted ≠ some name) :
    machine.disk.Matches state name :=
  (allows name).matches (none state (by simp [record, phase]) name (mem_recryptedFiles name) other)

theorem Careful.noneAhead {machine : Machine} {change : State -> State}
    (careful : machine.Careful action) (records : action.RecordsHistory change) :
    machine.NoneAhead none := by
  rcases records with ⟨file, _, _, rfl, -⟩ | ⟨file, rfl, -⟩
  · exact careful
  · exact careful

end Machine

theorem Action.RecordsHistory.frame {action : Action} {change : State -> State}
    (records : action.RecordsHistory change) (state : State) :
    (change state).files = state.files ∧ (change state).covers = state.covers := by
  rcases records with ⟨file, _, _, -, rfl⟩ | ⟨file, -, rfl⟩
  · exact ⟨rfl, rfl⟩
  · exact ⟨rfl, rfl⟩

namespace Machine

variable {machine : Machine}

theorem Consistent.opens (consistent : machine.Consistent)
    (phase : machine.phase = .unlocked generations) :
    ∃ state, generations = .bound state ∧ machine.disk.Opens state := by
  cases generations with
  | bound state => exact ⟨state, rfl, by simpa only [Consistent, phase] using consistent⟩
  | unbound | unreadable => simp only [Consistent, phase] at consistent

theorem Consistent.crash (consistent : machine.Consistent) (careful : machine.Careful .crash) :
    ∃ state, machine.disk.Opens state := by
  cases phase : machine.phase with
  | closed => simpa only [Consistent, phase] using consistent
  | unlocked =>
    obtain ⟨state, -, opens⟩ := consistent.opens phase
    exact ⟨state, opens⟩
  | keeping next =>
    simp only [Consistent, phase] at consistent
    obtain ⟨state, opens, -⟩ := consistent
    exact ⟨state, opens⟩
  | storing next =>
    simp only [Consistent, phase] at consistent
    obtain ⟨state, anchor, -, -, -, within⟩ := consistent
    exact ⟨state, (within careful).1⟩
  | raising next =>
    simp only [Consistent, phase] at consistent
    obtain ⟨state, anchor, precedes, vault, vouched, held, within⟩ := consistent
    obtain ⟨covers, allows, kept⟩ := within careful
    rcases vouched with level | behind
    · -- The vault is one write behind: the record just written stands.
      have reached : next.generation = anchor + 1 := by rw [precedes.generation, level]
      exact ⟨next, precedes.covers, .current held vault (.inr reached),
        fun name => (precedes.matched name).allows⟩
    -- It is two behind: the record kept back stands, and the file is ahead of it.
    have beyond : next.generation = anchor + 2 := by rw [precedes.generation, behind]
    exact ⟨state, covers, .previous held beyond kept vault behind, allows⟩

theorem opens_writeAtomic
    {disk : Disk} (name : FileName) (bytes : List UInt8) (opens : disk.Opens state)
    (others : ∀ other, other ≠ name -> disk.Matches state other) :
    (disk.writeAtomic name (.sealed (some (state.generation + 1)) bytes)).Opens state ∧
      (disk.writeAtomic name (.sealed (some (state.generation + 1)) bytes)).Precedes state
        { state.wrote name (state.generation + 1) with generation := state.generation + 1 } := by
  refine ⟨⟨opens.covers, opens.stands.withFiles _, ?_⟩, opens.covers, rfl, ?_⟩
  · intro other image held
    by_cases same : other = name
    · subst same
      cases (Table.get_insert_self _ _ _).symm.trans held
      exact ⟨_, rfl, .inr rfl⟩
    · exact opens.allows other image ((get_insert_of_ne same).symm.trans held)
  intro other image held
  by_cases same : other = name
  · subst same
    cases (get_insert_self _ _ _).symm.trans held
    exact ⟨_, rfl, get_insert_self _ _ _⟩
  obtain ⟨generation, carried, recorded⟩ :=
    others other same image ((get_insert_of_ne same).symm.trans held)
  exact ⟨generation, carried, (get_insert_of_ne same).trans recorded⟩

theorem consistent_keepPrevious {disk : Disk} {next : State} (opens : disk.Opens state)
    (precedes : disk.Precedes state next) :
    Consistent { disk := disk.keepPrevious, phase := .storing next } := by
  obtain ⟨covers, stands, allows⟩ := opens
  obtain ⟨anchor, vault, vouched⟩ := stands.anchor
  cases stands with
  | current held vault' =>
    have kept : disk.keepPrevious = { disk with statePrevious := some state } := by
      simp [Disk.keepPrevious, held]
    rw [kept]
    exact ⟨state, anchor, { precedes with }, vault, vouched,
      fun _ => ⟨⟨covers, .current held vault vouched, allows⟩, rfl⟩⟩
  | @previous _ interrupted held _ _ vault' =>
    have kept : disk.keepPrevious = { disk with statePrevious := some interrupted } := by
      simp [Disk.keepPrevious, held]
    rw [kept]
    refine ⟨state, anchor, { precedes with }, vault, vouched, fun within => ?_⟩
    cases vault.symm.trans vault'
    simp only [WithinReach, vault] at within
    omega

theorem Consistent.step {next : Machine} (consistent : machine.Consistent)
    (careful : machine.Careful action) (ran : machine.step action = some next) :
    next.Consistent := by
  cases steps_of_step ran with
  | crash => exact consistent.crash careful
  | unlock phase =>
    simp only [Consistent, phase] at consistent
    obtain ⟨state, opens⟩ := consistent
    rw [opens.unlock]
    exact opens
  | writeFile name bytes phase =>
    obtain ⟨state, rfl, opens⟩ := consistent.opens phase
    have others : ∀ other, other ≠ name -> machine.disk.Matches state other :=
      fun other apart => NoneAhead.matches careful phase opens.allows
        (fun same => apart (Option.some.inj same).symm)
    exact ⟨state, opens_writeAtomic name bytes opens others⟩
  | @recordHistory _ _ _ records phase =>
    obtain ⟨state, rfl, opens⟩ := consistent.opens phase
    obtain ⟨files, covers⟩ := records.frame state
    refine ⟨state, opens, covers ▸ opens.covers, rfl, fun name image held => ?_⟩
    have matched : machine.disk.Matches state name :=
      (careful.noneAhead records).matches phase opens.allows (by simp)
    obtain ⟨generation, carried, recorded⟩ := matched image held
    exact ⟨generation, carried, (congrArg (get · name) files).trans recorded⟩
  | clearSessions name phase =>
    obtain ⟨state, rfl, opens⟩ := consistent.opens phase
    refine ⟨opens.covers, opens.stands.withFiles _, fun other image held => ?_⟩
    by_cases same : other = name
    · rw [same, get_remove_self] at held
      cases held
    · exact opens.allows other image ((get_remove_of_ne same).symm.trans held)
  | keep phase =>
    simp only [Consistent, phase] at consistent
    obtain ⟨state, opens, precedes⟩ := consistent
    exact consistent_keepPrevious opens precedes
  | @store written phase =>
    simp only [Consistent, phase] at consistent
    obtain ⟨state, anchor, precedes, vault, vouched, within⟩ := consistent
    exact ⟨state, anchor, { precedes with }, vault, vouched,
      rfl, fun reach => ⟨(within reach).1.covers, (within reach).1.allows, (within reach).2⟩⟩
  | @raise written phase =>
    simp only [Consistent, phase] at consistent
    obtain ⟨state, anchor, precedes, vault, vouched, held, within⟩ := consistent
    exact ⟨precedes.covers, .current held rfl (.inl rfl),
      fun name => Disk.Matches.allows (precedes.matched name)⟩

end Machine

def Action.leaves (name : FileName) : Action -> Option (Option (List UInt8))
  | .writeFile written bytes => if written = name then some (some bytes) else none
  | .clearSessions cleared => if cleared = name then some none else none
  | .unlock | .noteHistoryWrite _ _ _ | .forgetHistoryFile _ | .persist | .crash => none

theorem Machine.Consistent.contents_step {machine next : Machine} (consistent : machine.Consistent)
    (ran : machine.step action = some next) (name : FileName) :
    next.disk.contents name = (action.leaves name).getD (machine.disk.contents name) := by
  cases steps_of_step ran with
  | crash | store phase | raise phase => rfl
  | unlock phase =>
    simp only [Consistent, phase] at consistent
    obtain ⟨state, opens⟩ := consistent
    rw [opens.unlock]
    rfl
  | writeFile written bytes phase =>
    obtain ⟨state, rfl, -⟩ := consistent.opens phase
    by_cases same : written = name
    · subst same
      simp [writeFile, Disk.writeAtomic, Disk.contents, Action.leaves, FileImage.bytes]
    have other : name ≠ written := fun equal => same equal.symm
    simp [writeFile, Disk.writeAtomic, Disk.contents, leaves, same, get_insert_of_ne other]
  | recordHistory records phase =>
    obtain ⟨state, rfl, -⟩ := consistent.opens phase
    rcases records with ⟨file, _, bytes, rfl, -⟩ | ⟨file, rfl, -⟩
    · rfl
    · rfl
  | clearSessions cleared phase =>
    by_cases same : cleared = name
    · subst same
      simp [Disk.contents, leaves]
    have other : name ≠ cleared := fun equal => same equal.symm
    simp [Disk.contents, leaves, same, get_remove_of_ne other]
  | keep phase =>
    cases held : machine.disk.state <;> simp [Disk.keepPrevious, held, Disk.contents, leaves]

/-- A directory whose record is written and vouched for, with every file as it
says. -/
structure Disk.Recorded (disk : Disk) (state : State) : Prop where
  held : disk.state = some state
  vault : disk.stateGeneration = some state.generation
  covers : COVERS_LOG_AND_OUTBOX <= state.covers
  matched : ∀ name, disk.Matches state name

theorem Disk.Recorded.opens {disk : Disk} {state : State} (recorded : disk.Recorded state) :
    disk.Opens state :=
  ⟨recorded.covers, .current recorded.held recorded.vault (.inl rfl),
    fun name => (recorded.matched name).allows⟩

theorem Disk.unlock_recorded {disk : Disk} (unanchored : disk.stateGeneration = none) :
    disk.unlock.2.Recorded disk.adopted := by
  obtain ⟨-, held, vault, covers⟩ := disk.unlock_eq_bound unanchored
  refine ⟨held, vault, Nat.le_of_eq covers.symm, fun name image present => ?_⟩
  rw [files_unlock unanchored] at present
  obtain ⟨before, was, rfl⟩ := Option.map_eq_some_iff.mp present
  exact ⟨_, generation_stamp_encrypt before, by rw [files_adopted, was, Option.map_some]⟩

/-- Through every run of writes, history records and crashes whose steps meet
the condition, every read of the reopened directory succeeds and returns what
was last written. -/
theorem readFile_eq_last_write
    {initial final : Machine} {state : State} {generations : Generations} {actions : List Action}
    (unlocked : initial.phase = .unlocked (.bound state)) (recorded : initial.disk.Recorded state)
    (careful : EachState Machine.step Machine.Careful initial actions)
    (ended : run Machine.step initial actions = some final)
    (reopened : final.phase = .unlocked generations) (name : FileName) :
    final.disk.readFile generations name =
      .ok ((lastSome (Action.leaves name) actions).getD (initial.disk.contents name)) := by
  let relates : List Action -> Machine -> Prop := fun before machine =>
    machine.Consistent ∧ machine.disk.contents name =
      (lastSome (leaves name) before).getD (initial.disk.contents name)
  have start : relates [] initial := by
    refine ⟨?_, rfl⟩
    simp only [Machine.Consistent, unlocked]
    exact recorded.opens
  have extend : ∀ before action machine next, relates before machine ->
      machine.Careful action -> machine.step action = some next ->
      relates (before ++ [action]) next := by
    rintro before action machine next ⟨consistent, contents⟩ met stepped
    refine ⟨consistent.step met stepped, ?_⟩
    rw [consistent.contents_step stepped name, contents, lastSome_snoc]
    cases action.leaves name <;> rfl
  obtain ⟨consistent, contents⟩ := EachState.run_relates careful start extend ended
  obtain ⟨_, rfl, opens⟩ := consistent.opens reopened
  rw [(opens.allows name).readFile, contents]

def Disk.protectedBefore : Disk :=
  { files := (Table.empty.insert .contacts (.sealed none [1])).insert .outbox (.sealed none [4])
    state := none
    statePrevious := none
    stateGeneration := none }

def Machine.adopted : Machine :=
  { disk := Disk.protectedBefore.unlock.2, phase := .unlocked Disk.protectedBefore.unlock.1 }

def Action.writtenAgain : List Action :=
  [.writeFile .contacts [2], .crash, .unlock, .writeFile .contacts [3], .persist, .persist, .persist]

def Action.writtenPast : List Action :=
  [.writeFile .contacts [2], .crash, .unlock, .writeFile .outbox [5], .persist, .persist, .persist]

theorem readFile_of_write_made_again :
    ∃ final generations, run Machine.step Machine.adopted Action.writtenAgain = some final ∧
      final.phase = .unlocked generations ∧
      final.disk.readFile generations .contacts = .ok (some [3]) := by
  have careful : EachState step Machine.Careful adopted writtenAgain := by
    decide +kernel
  exact ⟨_, _, rfl, rfl, readFile_eq_last_write rfl (Disk.unlock_recorded rfl) careful rfl rfl
    .contacts⟩

/-- The write that follows takes the generation of the one cut short, and the
file that carries it is refused from then on. -/
theorem readFile_refuses_interrupted_write :
    (run Machine.step Machine.adopted Action.writtenPast).bind (Machine.readFile · .contacts) =
      some (.error (.replaced .contacts (some 2) [1, 3])) := by
  decide +kernel

end Silver.Client
