import Silver.Client.Store.Defs

/-!
# Giving a directory its first generations

The adoption walks the whole files once.  A file that carries no generation is
rewritten at the first one, a file that carries one keeps it, and the record
says of every file what it then carries.
-/

namespace Silver.Client

open Foundation FileImage Option Table

def FileImage.stamp : FileImage → FileImage
  | .plain bytes => .plain bytes
  | .sealed generation bytes => .sealed (some (generation.getD Disk.FIRST)) bytes

namespace FileImage

@[simp] theorem stamp_stamp (image : FileImage) : image.stamp.stamp = image.stamp := by
  cases image <;> rfl

@[simp] theorem bytes_stamp (image : FileImage) : image.stamp.bytes = image.bytes := by
  cases image <;> rfl

theorem generation_stamp_encrypt (image : FileImage) :
    image.encrypt.stamp.generation = some (image.generation.getD Disk.FIRST) := by
  cases image <;> rfl

theorem getD_generation_stamp (image : FileImage) :
    image.stamp.generation.getD Disk.FIRST = image.generation.getD Disk.FIRST := by
  cases image <;> rfl

end FileImage

namespace Disk

theorem files_adoptFile (adopted : State × Disk) (name other : FileName) :
    (adoptFile adopted name).2.files.get other =
      if other = name then (adopted.2.files.get name).map stamp
      else adopted.2.files.get other := by
  by_cases same : other = name
  · subst same
    rw [if_pos rfl]
    cases held : adopted.2.files.get other with
    | none => simp only [adoptFile, held, map_none]
    | some image =>
      rcases image with bytes | ⟨_ | generation, bytes⟩
      · simp [adoptFile, held, stamp]
      · simp [adoptFile, held, writeAtomic, stamp]
      · simp [adoptFile, held, stamp]
  rw [if_neg same]
  unfold adoptFile
  split
  · rename_i generation bytes held
    cases generation with
    | none => exact get_insert_of_ne same
    | some generation => rfl
  · rfl

theorem record_adoptFile (adopted : State × Disk) (name other : FileName) :
    (adoptFile adopted name).1.files.get other = if other = name then
        (((adopted.2.files.get name).map stamp).bind generation).or (adopted.1.files.get name)
      else adopted.1.files.get other := by
  by_cases same : other = name
  · subst same
    rw [if_pos rfl]
    cases held : adopted.2.files.get other with
    | none => simp only [adoptFile, held, map_none, bind_none, none_or]
    | some image =>
      rcases image with bytes | ⟨generation, bytes⟩
      · simp [adoptFile, held, stamp, generation]
      simp [adoptFile, held, State.wrote, FileImage.stamp, FileImage.generation]
  rw [if_neg same]
  unfold adoptFile
  split
  · exact get_insert_of_ne same
  · rfl

theorem frame_adoptFile (adopted : State × Disk) (name : FileName) :
    (adoptFile adopted name).1.covers = adopted.1.covers ∧
      (adoptFile adopted name).2.state = adopted.2.state ∧
      (adoptFile adopted name).2.statePrevious = adopted.2.statePrevious := by
  unfold adoptFile
  split
  · rename_i generation bytes held
    cases generation with
    | none | some generation => exact ⟨rfl, rfl, rfl⟩
  · exact ⟨rfl, rfl, rfl⟩

section

variable (names : List FileName) (adopted : State × Disk)

theorem files_foldl_adoptFile (name : FileName) :
    (names.foldl adoptFile adopted).2.files.get name =
      if name ∈ names then (adopted.2.files.get name).map stamp
      else adopted.2.files.get name := by
  induction names generalizing adopted with
  | nil => simp
  | cons head names ih =>
    rw [List.foldl_cons, ih, files_adoptFile]
    by_cases same : name = head
    · subst same
      simp [map_map, Function.comp_def]
    · simp [same]

theorem record_foldl_adoptFile (name : FileName) :
    (names.foldl adoptFile adopted).1.files.get name = if name ∈ names then
        (((adopted.2.files.get name).map stamp).bind generation).or (adopted.1.files.get name)
      else adopted.1.files.get name := by
  induction names generalizing adopted with
  | nil => simp
  | cons head names ih =>
    rw [List.foldl_cons, ih, files_adoptFile, record_adoptFile]
    by_cases same : name = head
    · subst same
      simp only [if_true, map_map, Function.comp_def, stamp_stamp, List.mem_cons, true_or]
      split
      · cases ((adopted.2.files.get name).map stamp).bind generation <;> simp
      · rfl
    · simp [same]

theorem frame_foldl_adoptFile :
    (names.foldl adoptFile adopted).1.covers = adopted.1.covers ∧
      (names.foldl adoptFile adopted).2.state = adopted.2.state ∧
      (names.foldl adoptFile adopted).2.statePrevious = adopted.2.statePrevious := by
  induction names generalizing adopted with
  | nil => exact ⟨rfl, rfl, rfl⟩
  | cons head names ih =>
    obtain ⟨covers, state, previous⟩ := ih (adoptFile adopted head)
    obtain ⟨headCovers, headState, headPrevious⟩ := frame_adoptFile adopted head
    exact ⟨covers.trans headCovers, state.trans headState, previous.trans headPrevious⟩

end

theorem generation_foldl_adoptFile (names : List FileName) {adopted : State × Disk}
    (early : ∀ name image, adopted.2.files.get name = some image →
      image.generation.getD FIRST ≤ adopted.1.generation) :
    (names.foldl adoptFile adopted).1.generation = adopted.1.generation := by
  induction names generalizing adopted with
  | nil => rfl
  | cons head names ih =>
    have level : (adoptFile adopted head).1.generation = adopted.1.generation := by
      unfold adoptFile
      split
      · rename_i generation bytes held
        exact Nat.max_eq_left (early head _ held)
      · rfl
    rw [List.foldl_cons, ih, level]
    intro name image held
    rw [level]
    rw [files_adoptFile] at held
    split at held
    · obtain ⟨before, was, rfl⟩ := map_eq_some_iff.mp held
      rw [getD_generation_stamp]
      exact early head before was
    · exact early name image held

@[simp] theorem files_persistGenerations (disk : Disk) (state : State) :
    (disk.persistGenerations state).files = disk.files := by
  cases held : disk.state <;>
    simp [persistGenerations, keepPrevious, held, writeState, raiseAnchor]

theorem files_unlock {disk : Disk} (unanchored : disk.stateGeneration = none) (name : FileName) :
    disk.unlock.2.files.get name = (disk.files.get name).map fun image => image.encrypt.stamp := by
  simp [unlock, loadGenerations, sealStragglers, unanchored, adoptGenerations,
    files_persistGenerations, files_foldl_adoptFile, mem_recryptedFiles, Function.comp_def]

def adopted (disk : Disk) : State :=
  disk.sealStragglers.adoptGenerations.1

theorem files_adopted (disk : Disk) (name : FileName) : disk.adopted.files.get name =
      (disk.files.get name).map fun image => image.generation.getD FIRST := by
  simp only [adopted, sealStragglers, adoptGenerations, record_foldl_adoptFile,
    mem_recryptedFiles, if_true, Table.get_map, State.default, Table.get_empty, Option.or_none]
  cases disk.files.get name with
  | none => rfl
  | some image => exact generation_stamp_encrypt image

theorem generation_adopted {disk : Disk} (early : ∀ name image, disk.files.get name = some image →
      image.generation.getD FIRST = FIRST) :
    disk.adopted.generation = FIRST := by
  refine generation_foldl_adoptFile recryptedFiles fun name image held => ?_
  obtain ⟨before, was, rfl⟩ := map_eq_some_iff.mp held
  exact Nat.le_of_eq (by rw [generation_encrypt, early name before was])

theorem unlock_eq_bound {disk : Disk} (unanchored : disk.stateGeneration = none) :
    disk.unlock.1 = .bound disk.adopted ∧ disk.unlock.2.state = some disk.adopted ∧
      disk.unlock.2.stateGeneration = some disk.adopted.generation ∧
      disk.adopted.covers = COVERS_LOG_AND_OUTBOX := by
  have walk := frame_foldl_adoptFile recryptedFiles
    ({ State.default with generation := FIRST, covers := COVERS_LOG_AND_OUTBOX },
      disk.sealStragglers)
  simp only [unlock, loadGenerations, show disk.sealStragglers.stateGeneration = none from unanchored]
  exact ⟨rfl, rfl, rfl, walk.1⟩

theorem statePrevious_unlock
    {disk : Disk} (unanchored : disk.stateGeneration = none) (unrecorded : disk.state = none) :
    disk.unlock.2.statePrevious = disk.statePrevious := by
  obtain ⟨-, state, previous⟩ := frame_foldl_adoptFile recryptedFiles
    ({ State.default with generation := FIRST, covers := COVERS_LOG_AND_OUTBOX },
      disk.sealStragglers)
  have nothing := state.trans unrecorded
  simp only [unlock, loadGenerations, show disk.sealStragglers.stateGeneration = none from unanchored,
    adoptGenerations, persistGenerations, keepPrevious, writeState, raiseAnchor, nothing]
  exact previous

end Disk

end Silver.Client
