import LibreServ.Runs
import LibreServ.Table

/-! The records of backups and of their repositories, and the snapshots in the restic repositories. A repository is made
for one app, or as a default; a backup is recorded with the repository it was made in. restic and the database work. -/

namespace LibreServ.Backups

/-- A row of `backup_repositories`. -/
structure Repository where
  app : Option String
  path : String
  isSystem : Bool
  connectManaged : Option Bool
  isAppSpecific : Bool
  createdAt : Int
  deriving DecidableEq, Repr

/-- A row of `backups`; a row of an older format has no snapshot. -/
structure Backup where
  app : Option String
  restic : Bool
  snapshot : Option Nat
  repoID : String
  createdAt : Int
  deriving DecidableEq, Repr

/-- `snapshots` lists what each repository path holds. `made` lists the backups that `BackupApp` made without an error,
with the path of their repository. -/
structure State where
  apps : List String
  encrypts : Bool
  basePath : String
  repos : Table String Repository
  backups : Table String Backup
  snapshots : List (String × Nat)
  nextSnapshot : Nat
  made : List (String × String × Nat)

inductive Action where
  | backupApp (backupID repoID app : String) (now : Int)
  | restoreApp (backupID target : String) (done : Bool)
  | createRepository (repoID app path : String) (isSystem connectManaged : Bool) (now : Int)
  | deleteRepository (repoID : String)
  | deleteBackup (backupID : String)
  | cleanupOldBackups (app : String) (retention : Nat)
  deriving DecidableEq, Repr

/-- The later of two rows by `created_at`, then by `id`. -/
def later (best : Option (String × Repository)) (row : String × Repository) : Option (String × Repository) :=
  match best with
  | none => some row
  | some old =>
    if old.2.createdAt < row.2.createdAt ∨ (old.2.createdAt = row.2.createdAt ∧ old.1 < row.1) then some row
    else some old

/-- `ORDER BY created_at DESC, id DESC LIMIT 1` -/
def newest (rows : List (String × Repository)) : Option (String × Repository) := rows.foldl later none

namespace State

variable (st : State)

def getRepositoryForApp (app : String) : Option (String × Repository) :=
  newest (st.repos.select fun _ repo => repo.app = some app)

def getDefaultRepository : Option (String × Repository) :=
  newest (st.repos.select fun _ repo => repo.app = none && !repo.isSystem && !repo.isAppSpecific)

def createRepository (repoID app path : String) (isSystem connectManaged : Bool) (now : Int) : Option State :=
  if !st.encrypts || (app ≠ "" && st.repos.any fun _ repo => repo.app = some app) then none
  else
    some { st with
      repos := st.repos.put repoID
        ⟨if app = "" then none else some app, path, isSystem, some connectManaged, app ≠ "", now⟩ }

def getOrCreateRepoForApp (repoID app : String) (now : Int) : Option (State × String × String) :=
  match st.getRepositoryForApp app with
  | some (id, repo) => some (st, id, repo.path)
  | none =>
    match st.getDefaultRepository with
    | some (id, repo) => some (st, id, repo.path)
    | none =>
      let path := st.basePath ++ "/repos/" ++ app
      (st.createRepository repoID app path false false now).map fun st => (st, repoID, path)

/-- restic makes a snapshot, and the backup is recorded. -/
def backupWithRestic (backupID repoID path app : String) (now : Int) : State :=
  { st with
    snapshots := (path, st.nextSnapshot) :: st.snapshots
    nextSnapshot := st.nextSnapshot + 1
    backups := st.backups.put backupID ⟨some app, true, some st.nextSnapshot, repoID, now⟩
    made := (backupID, path, st.nextSnapshot) :: st.made }

def backupApp (backupID repoID app : String) (now : Int) : State :=
  if app ∉ st.apps then st
  else
    match st.getOrCreateRepoForApp repoID app now with
    | none => st
    | some (st, repoID, path) => st.backupWithRestic backupID repoID path app now

/-- The repository that a backup was made in, for a restore. -/
def getRepoByBackup (b : Backup) : Option (String × Repository) :=
  if b.repoID ≠ "" then (st.repos.get? b.repoID).map fun repo => (b.repoID, repo)
  else
    match b.app with
    | none => none
    | some app => st.getRepositoryForApp app <|> st.getDefaultRepository

/-- A restore into another app rewrites the app of the record; `done` says that the files were restored. -/
def restoreApp (backupID target : String) (done : Bool) : State :=
  match st.backups.get? backupID with
  | none => st
  | some b =>
    let appID := b.app.getD ""
    let target := if target = "" then appID else target
    if b.restic ∧ b.snapshot.isSome ∧ target ∈ st.apps ∧ (st.getRepoByBackup b).isSome ∧ done ∧ appID ≠ "" ∧
        target ≠ "" ∧ appID ≠ target then
      { st with
        backups := st.backups.update fun id b => if id = backupID then { b with app := some target } else b }
    else st

/-- `DELETE … AND NOT EXISTS (SELECT 1 FROM backups WHERE repo_id = ?)` -/
def deleteRepository (repoID : String) : State :=
  match st.repos.get? repoID with
  | none => st
  | some repo =>
    if repo.isSystem ∨ repo.connectManaged ≠ some false ∨ st.backups.any (fun _ b => b.repoID = repoID) then st
    else { st with repos := st.repos.erase repoID }

def forgetSnapshot (path : String) (snapshot : Nat) : State :=
  { st with snapshots := st.snapshots.filter (· ≠ (path, snapshot)) }

/-- The path of the repository in which `DeleteBackup` forgets the snapshot. -/
def lookedUp (b : Backup) : Option String := (st.getRepositoryForApp (b.app.getD "")).map fun row => row.2.path

def deleteBackup (backupID : String) : State :=
  match st.backups.get? backupID with
  | none => st
  | some b =>
    let st :=
      match b.restic, b.snapshot, st.lookedUp b with
      | true, some snapshot, some path => st.forgetSnapshot path snapshot
      | _, _, _ => st
    { st with backups := st.backups.erase backupID }

/-- `ORDER BY created_at DESC`; without an app, the backups of all. -/
def listBackups (app : String) : List (String × Backup) :=
  (st.backups.select fun _ b => app = "" || b.app = some app).insertionSort fun a b => b.2.createdAt ≤ a.2.createdAt

def cleanupOldBackups (app : String) (retention : Nat) : State :=
  ((st.listBackups app).drop retention).foldl (fun st row => st.deleteBackup row.1) st

/-- A new uuid. -/
def Fresh (backupID : String) : Prop := st.backups.get? backupID = none ∧ ∀ m ∈ st.made, m.1 ≠ backupID

instance (backupID : String) : Decidable (st.Fresh backupID) := inferInstanceAs (Decidable (_ ∧ _))

def step (st : State) : Action → Option State
  | .backupApp backupID repoID app now =>
    if st.Fresh backupID ∧ st.repos.get? repoID = none then some (st.backupApp backupID repoID app now) else none
  | .restoreApp backupID target done => some (st.restoreApp backupID target done)
  | .createRepository repoID app path isSystem connectManaged now =>
    if st.repos.get? repoID = none ∧ (app = "" ∨ app ∈ st.apps) then
      st.createRepository repoID app path isSystem connectManaged now
    else none
  | .deleteRepository repoID => some (st.deleteRepository repoID)
  | .deleteBackup backupID => some (st.deleteBackup backupID)
  | .cleanupOldBackups app retention => some (st.cleanupOldBackups app retention)

end State

end LibreServ.Backups
