import Silver.Relay.Directory.Seeding

/-!
# Restoring a backup

A restore checks the backup, opens the database that is there to see that nobody holds
it, moves it aside and loads the backup into a new one; where the loading fails, the old
one is moved back.  Opening brings an older layout up to date, and a new database that
cannot be made ends the call at once.
-/

namespace Silver.Relay.Restore

variable {Rows Backup : Type}

/-- A database file: the layout it is stamped with, the mailbox total if it is counted,
and its tables, none in a file just made. -/
structure Database (Rows : Type) where
  schema : Option Nat
  mailboxBytes : Option Nat
  tables : Option Rows
deriving DecidableEq

/-- What the relay does with the tables themselves. -/
structure Layout (Rows Backup : Type) where
  openTables : Option Rows → Rows
  migrate : Nat → Rows → Option Rows
  usage : Rows → Nat
  verify : Backup → Bool
  load : Backup → Option (Database Rows)

/-- Opening: missing tables are made, an older layout is brought up to date and stamped,
a newer one is refused, all in one transaction. -/
def Layout.init (layout : Layout Rows Backup) (database : Database Rows) : Option (Database Rows) :=
  let version := database.schema.getD (if database.tables = none then SCHEMA_VERSION else 0)
  if SCHEMA_VERSION < version then none
  else
    ((List.range' version (SCHEMA_VERSION - version)).foldlM (fun rows version =>
        layout.migrate version rows) (layout.openTables database.tables)).map fun rows =>
      { schema := some SCHEMA_VERSION
        mailboxBytes := some (database.mailboxBytes.getD (layout.usage rows))
        tables := some rows }

/-- The data directory: `relay.redb`, and the file it is moved to. -/
structure Files (Rows : Type) where
  database : Option (Database Rows)
  aside : Option (Database Rows)

/-- How the steps of a call go that are not the relay's own: whether the backup can be
opened and read, the old database be opened, and be moved; what a new database that
cannot be made leaves behind; whether the backup can be opened again, and be committed. -/
structure Course (Rows : Type) where
  checks : Bool
  opens : Bool
  moves : Bool
  makes : Except (Option (Database Rows)) Unit
  loads : Bool

inductive Refusal where
  | unchecked
  | present
  | held
  | unmoved
  | unmade
  | unloaded
deriving DecidableEq

variable (layout : Layout Rows Backup) (file : Backup) (replace : Bool) (course : Course Rows)

def openStopped (database : Database Rows) : Option (Database Rows) :=
  if course.opens then layout.init database else none

/-- The new database, once there is none in its place; `replaced` says whether one was
moved aside. -/
def fill (replaced : Bool) (files : Files Rows) : Except Refusal Bool × Files Rows :=
  match course.makes with
  | .error left => (.error .unmade, { files with database := left })
  | .ok () =>
    match if course.loads then layout.load file else none with
    | some loaded => (.ok replaced, { files with database := some loaded })
    | none =>
      (.error .unloaded, if replaced then { database := files.aside, aside := none }
        else { files with database := none })

def restore (files : Files Rows) : Except Refusal Bool × Files Rows :=
  if !course.checks || !layout.verify file then (.error .unchecked, files)
  else
    match files.database with
    | none => fill layout file course false files
    | some database =>
      if replace = false then (.error .present, files)
      else
        match openStopped layout course database with
        | none => (.error .held, files)
        | some opened =>
          if course.moves then fill layout file course true { database := none, aside := opened }
          else (.error .unmoved, { files with database := opened })

/-- What `relay.redb` is when the call comes to move it: as it was opened, or nothing.
A call that ends before has no such moment. -/
def standing (database : Option (Database Rows)) : Option (Option (Database Rows)) :=
  if !course.checks || !layout.verify file then none
  else
    match database with
    | none => some none
    | some database =>
      if replace = false then none
      else (openStopped layout course database).map some

/-- Opening the old database changed nothing in it, or nothing fails from there on; and
the new one can be made, unless the old one was not moved. -/
def Spares (database : Option (Database Rows)) : Prop :=
  ∀ opened, standing layout file replace course database = some opened →
    if opened.isSome && !course.moves then opened = database
    else
      match course.makes with
      | .error left => left = database
      | .ok () => opened = database ∨ course.loads = true ∧ (layout.load file).isSome

theorem fill_spares {files : Files Rows} {opened : Option (Database Rows)}
    (database : Option (Database Rows)) (stood : if replaced then files.aside = opened else opened = none) :
    (∀ refusal after, fill layout file course replaced files = (.error refusal, after) →
      after.database = database) ↔
      match course.makes with
      | .error left => left = database
      | .ok () => opened = database ∨ course.loads = true ∧ (layout.load file).isSome := by
  unfold fill
  cases course.makes with
  | error left => simp
  | ok =>
    cases loads : course.loads with
    | false => cases replaced <;> simp_all
    | true =>
      cases loaded : layout.load file with
      | some loaded => simp
      | none => cases replaced <;> simp_all

/-- A restore that fails leaves the database as it was exactly where opening the old one
changed nothing in it, or nothing fails after that, and where the new one can be made. -/
theorem failed_restore_spares_iff (files : Files Rows) :
    (∀ refusal after, restore layout file replace course files = (.error refusal, after) →
      after.database = files.database) ↔
      Spares layout file replace course files.database := by
  unfold restore Spares standing
  by_cases unchecked : (!course.checks || !layout.verify file) = true
  · simp_all
  simp only [unchecked, if_false, Bool.false_eq_true]
  cases present : files.database with
  | none =>
    rw [fill_spares layout file course _ (show if false then _ else none = none from rfl)]
    simp
  | some database =>
    cases replace with
    | false => simp_all
    | true =>
      cases opens : openStopped layout course database with
      | none => simp_all
      | some opened =>
        cases moves : course.moves with
        | false => simp [opens]
        | true =>
          have moved := fill_spares layout file course (some database)
            (show if true then (Files.mk none (some opened)).aside = some opened else _ from rfl)
          simpa [opens] using moved

/-- Tables that are a layout's number: each migration makes it one more. -/
def Layout.counting : Layout Nat Unit where
  openTables rows := rows.getD SCHEMA_VERSION
  migrate version _ := some (version + 1)
  usage _ := 0
  verify _ := true
  load _ := some ⟨some SCHEMA_VERSION, some 0, some SCHEMA_VERSION⟩

/-- Where the new database cannot be made, the old one is gone from its place; where the
old one is not moved, it has been brought to another layout. -/
theorem failed_restore_changes_database :
    restore Layout.counting () true ⟨true, true, true, .error none, true⟩
        ⟨some ⟨some 3, some 0, some 3⟩, none⟩ =
      (.error .unmade, ⟨none, some ⟨some 3, some 0, some 3⟩⟩) ∧
    restore Layout.counting () true ⟨true, true, false, .ok (), true⟩
        ⟨some ⟨some 2, none, some 2⟩, none⟩ =
      (.error .unmoved, ⟨some ⟨some 3, some 0, some 3⟩, none⟩) :=
  ⟨rfl, rfl⟩

end Silver.Relay.Restore
