import Mathlib

/-! The replacement of the server's database file by a restored one: the swap of the files, the migration of the new file
with its own rollback, and the cleanup of the safety copies at the next start. A database is its pages; what was committed
since the last checkpoint stands in the log. -/

namespace LibreServ.DbRestore

abbrev Pages := Nat → List UInt8

/-- The pages that stand in the log. -/
abbrev Log := Nat → Option (List UInt8)

def replay (pages : Pages) (log : Log) : Pages := fun p => (log p).getD (pages p)

/-- What Go's embedded files do to a database. -/
structure Schema where
  ensureTable : Pages → Pages
  reconcileVersions : Pages → Pages
  files : List String
  applied : Pages → String → Bool
  run : String → Pages → Pages
  reconcileSchema : Pages → Pages

/-- The steps that may fail. -/
inductive Step where
  | statReplacement | closeCheckpoint | removeLog | statCurrent | moveAway | moveIn | open | removeNew | moveBack | reopen
  | ensureTable | reconcileVersions | scanApplied (file : String) | dryRun | checkpoint | backup
  | run (file : String) | rollbackCheckpoint | rollbackCopy | rollbackOpen | removeBackup | reconcileSchema
  | healthCheck | removeRollback
  deriving DecidableEq

/-- A statement that fails leaves the database as `left` says, a copy that fails leaves `torn`. -/
structure Faults where
  fails : Step → Bool
  left : Step → Pages → Pages
  torn : Step → Pages

/-- The files at the database's path, with the handle on them. -/
structure Db where
  main : Option Pages
  log : Option Log
  preMigration : Option Pages
  isOpen : Bool

/-- What a query on this path sees. -/
def Db.content (db : Db) : Option Pages :=
  db.main.map fun main =>
    match db.log with
    | none => main
    | some log => replay main log

/-- `given` is the content that `Migrate` found. -/
structure State where
  db : Db
  preRestore : Option Pages
  given : Option Pages

inductive Result where
  | ok
  /-- `undone` says that the compensating renames and the reopening succeeded. -/
  | error (undone : Bool)
  deriving DecidableEq

variable (faults : Faults) (schema : Schema)

namespace Db

variable (db : Db)

/-- The log goes into the file. -/
def checkpoint (step : Step) : Db := if faults.fails step then db else { db with main := db.content, log := none }

/-- Committed pages stand in the log. -/
def write (f : Pages → Pages) : Db :=
  { db with log := db.content.map fun pages => fun p => some (f pages p) }

/-- `d.db.Close()`, whose error is not looked at. -/
def close (step : Step) : Db := { db.checkpoint faults step with isOpen := false }

/-- `Open` makes a file where there is none. -/
def reopen : Db := { db with main := some (db.main.getD fun _ => []), isOpen := true }

/-- A migration fails: the file is copied back and opened again. -/
def rollback (backup : Pages) : Db :=
  let closed := db.close faults .rollbackCheckpoint
  if faults.fails .rollbackCopy then { closed with main := some (faults.torn .rollbackCopy) }
  else
    let copied := { closed with main := some backup }
    if faults.fails .rollbackOpen then copied else copied.reopen

/-- The pending migrations in order. -/
def runMigrations (backup : Pages) : List String → Db → Bool × Db
  | [], db => (true, db)
  | file :: rest, db =>
    if faults.fails (.run file) then (false, (db.write (faults.left (.run file))).rollback faults backup)
    else if db.content.any fun pages => schema.applied pages file then runMigrations backup rest db
    else runMigrations backup rest (db.write (schema.run file))

def isPending (pages : Pages) : Bool :=
  schema.files.any fun file => faults.fails (.scanApplied file) || !schema.applied pages file

/-- The migration files run, behind a copy of the database file. -/
def migrateFiles : Bool × Db :=
  if faults.fails .dryRun then (false, db)
  else
    let synced := db.checkpoint faults .checkpoint
    if faults.fails .backup then (false, { synced with preMigration := some (faults.torn .backup) })
    else
      let backup := synced.main.getD fun _ => []
      match runMigrations faults schema backup schema.files { synced with preMigration := some backup } with
      | (false, failed) => (false, failed)
      | (true, done) => (true, if faults.fails .removeBackup then done else { done with preMigration := none })

def Migrate : Bool × Db :=
  if faults.fails .ensureTable then (false, db.write (faults.left .ensureTable))
  else
    let ensured := db.write schema.ensureTable
    if faults.fails .reconcileVersions then (false, ensured.write (faults.left .reconcileVersions))
    else
      let reconciled := ensured.write schema.reconcileVersions
      let migrated :=
        if reconciled.content.any (isPending faults schema) then reconciled.migrateFiles faults schema else (true, reconciled)
      if migrated.1 then
        (true, migrated.2.write (if faults.fails .reconcileSchema then faults.left .reconcileSchema else schema.reconcileSchema))
      else migrated

end Db

/-- The new file is at its place. -/
def migrateAndCheck (rollbackFile : Option Pages) (db : Db) : Result × State :=
  match db.Migrate faults schema with
  | (false, failed) => (.error true, ⟨failed, rollbackFile, db.content⟩)
  | (true, migrated) =>
    if faults.fails .healthCheck then (.error true, ⟨migrated, rollbackFile, db.content⟩)
    else (.ok, ⟨migrated, if faults.fails .removeRollback then rollbackFile else none, db.content⟩)

/-- The new file cannot be opened: the old one is put back, if it was put aside. -/
def putBack (rollbackFile : Option Pages) (db : Db) : Result × State :=
  match rollbackFile with
  | none => (.error true, ⟨db, none, none⟩)
  | some old =>
    let removed := if faults.fails .removeNew then db else { db with main := none }
    let moved := if faults.fails .moveBack then removed else { removed with main := some old }
    let reopened := if faults.fails .reopen then moved else moved.reopen
    (.error (!faults.fails .moveBack && !faults.fails .reopen),
      ⟨reopened, if faults.fails .moveBack then some old else none, none⟩)

/-- The replacement is moved to the database's path. -/
def moveIn (replacement : Pages) (rollbackFile : Option Pages) (db : Db) : Result × State :=
  if faults.fails .moveIn then
    match rollbackFile with
    | none => (.error true, ⟨db, none, none⟩)
    | some old =>
      if faults.fails .moveBack then (.error false, ⟨db, some old, none⟩)
      else (.error true, ⟨{ db with main := some old }, none, none⟩)
  else
    let placed := { db with main := some replacement }
    if faults.fails .open then putBack faults rollbackFile placed
    else migrateAndCheck faults schema rollbackFile { placed with isOpen := true }

def ReplaceFile (replacement : Pages) (st : State) : Result × State :=
  if faults.fails .statReplacement then (.error true, st)
  else
    let closed := st.db.close faults .closeCheckpoint
    let alone := if faults.fails .removeLog then closed else { closed with log := none }
    if faults.fails .statCurrent || alone.main.isNone then moveIn faults schema replacement none alone
    else if faults.fails .moveAway then (.error true, { st with db := alone })
    else moveIn faults schema replacement alone.main { alone with main := none }

/-- The safety copies go at the next start. -/
def CleanupStaleBackups (st : State) : State :=
  { st with preRestore := none, db := { st.db with preMigration := none } }

end LibreServ.DbRestore
