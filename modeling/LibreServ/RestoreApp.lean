import LibreServ.Folders
import LibreServ.Replace

/-! The restore of an app from a restic snapshot. The app's folder is set aside, the snapshot is restored to a temporary
folder, the backed-up folder is looked for in there and moved in, and the old instance id is replaced in the files that
hold it. Any step may fail, among them every `os.Rename` from the temporary folder where that is on another filesystem. -/

namespace LibreServ.RestoreApp

abbrev Path := List String

abbrev Content := List Char

abbrev Dir := Folder String Content

/-- An absolute path that is not the root. -/
structure AppPath where
  parent : Path
  base : String
  deriving DecidableEq, Repr

def AppPath.names (p : AppPath) : Path := p.parent ++ [p.base]

structure Backup where
  appID : String
  /-- Its format is `BackupFormatRestic`. -/
  restic : Bool
  snapshotID : String
  deriving DecidableEq, Repr

structure App where
  path : AppPath
  running : Bool
  deriving DecidableEq, Repr

/-- What the snapshot of a backup holds. -/
structure Snapshot where
  appPath : AppPath
  content : Dir
  proper : content.Proper

/-- `root` is the temporary folder of this restore. -/
structure Server where
  useRestic : Bool
  backups : String → Option Backup
  apps : String → Option App
  root : Path
  snapshot : Snapshot

/-- The steps that may fail; `path` is below the temporary folder for `walk`, else below the app's folder. -/
inductive Op where
  | getBackup | findApp | stopApp | findRepo | setAside | makeTemp | restore | validate | makeApp | readTemp
  | lstatApp
  | walk (path : Path)
  | readRestored
  | rename (path : Path) | mkdir (path : Path) | readDir (path : Path) | copy (path : Path)
  | stat (name : String) | readCompose | readFile (path : Path)
  | clear | putBack
  deriving DecidableEq

/-- A `WriteFile` that fails leaves `torn`. -/
structure Faults where
  fails : Op → Bool
  torn : Path → Option Content

/-- The app's folder after the call; `lost` where the rollback itself fails. -/
inductive Outcome where
  | restored (app : Dir)
  | error (app : Option Dir)
  | lost
  deriving DecidableEq

/-- `findRestoredAppDir` gives an error, no folder, or one. -/
inductive Found where
  | failed
  | nowhere
  | at (dir : Dir)

variable (faults : Faults) (root : Path) (appPath : AppPath)

/-- This folder and the one above it are called like the app's. -/
def endsLike (dir : Path) : Bool :=
  !appPath.parent.isEmpty && (root ++ dir).getLast? = some appPath.base &&
    (root ++ dir).dropLast.getLast? = appPath.parent.getLast?

/-- `filepath.Walk` below a folder: the first one that is called like the app's, and whether some step failed before. -/
def walkIn (path : Path) : Dir → Option Dir × Bool
  | .nil => (none, false)
  | .file name _ rest =>
    let (found, failed) := walkIn path rest
    (found, faults.fails (.walk (path ++ [name])) || failed)
  | .folder name inside rest =>
    let here :=
      if faults.fails (.walk (path ++ [name])) then (none, true)
      else if endsLike root appPath (path ++ [name]) then (some inside, false)
      else walkIn (path ++ [name]) inside
    match here.1 with
    | some dir => (some dir, here.2)
    | none => ((walkIn path rest).1, here.2 || (walkIn path rest).2)

/-- `filepath.Walk` of a folder. -/
def walk (path : Path) (dir : Dir) : Option Dir × Bool :=
  if faults.fails (.walk path) then (none, true)
  else if endsLike root appPath path then (some dir, false)
  else walkIn faults root appPath path dir

def walked (dir : Dir) : Found :=
  match walk faults root appPath [] dir with
  | (some found, _) => .at found
  | (none, true) => .failed
  | (none, false) => .nowhere

def findRestoredAppDir (tmp : Dir) : Found :=
  if faults.fails .lstatApp then walked faults root appPath tmp
  else
    match tmp.sub appPath.names with
    | some dir => .at dir
    | none => walked faults root appPath tmp

/-- The entries of a folder, moved one by one; a file that cannot be renamed is copied. -/
def moveEntries (path : Path) : Dir → Option Dir
  | .nil => some .nil
  | .file name content rest =>
    if faults.fails (.rename (path ++ [name])) && faults.fails (.copy (path ++ [name])) then none
    else (moveEntries path rest).map (.file name content)
  | .folder name inside rest =>
    let moved :=
      if !faults.fails (.rename (path ++ [name])) then some inside
      else if faults.fails (.mkdir (path ++ [name])) || faults.fails (.readDir (path ++ [name])) then none
      else moveEntries (path ++ [name]) inside
    moved.bind fun inside => (moveEntries path rest).map (.folder name inside)

/-- `moveDirContents` -/
def moveDirContents (path : Path) (dir : Dir) : Option Dir :=
  if faults.fails (.mkdir path) || faults.fails (.readDir path) then none else moveEntries faults path dir

/-- `secureMove` of each entry. Where a file cannot be renamed, `moveDirContents` cannot read it as a folder. -/
def secureMove : Dir → Option Dir
  | .nil => some .nil
  | .file name content rest =>
    if faults.fails (.rename [name]) then none else (secureMove rest).map (.file name content)
  | .folder name inside rest =>
    let moved := if !faults.fails (.rename [name]) then some inside else moveDirContents faults [name] inside
    moved.bind fun inside => (secureMove rest).map (.folder name inside)

variable (oldID newID : String)

/-- Whether it succeeds, and what the file holds afterwards. -/
def rewriteFileInstanceID (path : Path) (content : Content) : Bool × Content :=
  if faults.fails (.readFile path) then (false, content)
  else if ¬ oldID.toList <:+: content then (true, content)
  else
    let replaced := Replace.replaceAll oldID.toList newID.toList content
    let replaced := Replace.replaceAll ("apps/" ++ oldID).toList ("apps/" ++ newID).toList replaced
    if replaced = content then (true, content)
    else
      match faults.torn path with
      | none => (true, replaced)
      | some torn => (false, torn)

/-- `.sol.yaml` or `docker-compose.yml`. -/
def rewriteNamed (target : String) : Dir → Option Dir
  | .nil => some .nil
  | .file name content rest =>
    if name = target ∧ !faults.fails (.stat name) then
      match rewriteFileInstanceID faults oldID newID [name] content with
      | (true, content') => some (.file name content' rest)
      | (false, _) => none
    else (rewriteNamed target rest).map (.file name content)
  | .folder name inside rest =>
    if name = target ∧ !faults.fails (.stat name) then none else (rewriteNamed target rest).map (.folder name inside)

def isYaml (name : String) : Bool := ".yml".toList.isSuffixOf name.toList || ".yaml".toList.isSuffixOf name.toList

/-- The files of `app-compose`; one that cannot be rewritten is only logged. -/
def rewriteYaml : Dir → Dir
  | .nil => .nil
  | .file name content rest =>
    .file name
      (if isYaml name then (rewriteFileInstanceID faults oldID newID ["app-compose", name] content).2 else content)
      (rewriteYaml rest)
  | .folder name inside rest => .folder name inside (rewriteYaml rest)

def rewriteCompose : Dir → Dir
  | .nil => .nil
  | .file name content rest => .file name content (rewriteCompose rest)
  | .folder name inside rest =>
    if name = "app-compose" ∧ !faults.fails .readCompose then
      .folder name (rewriteYaml faults oldID newID inside) rest
    else .folder name inside (rewriteCompose rest)

def rewriteInstanceID (dir : Dir) : Option Dir :=
  if oldID = "" ∨ newID = "" ∨ oldID = newID then some dir
  else
    ((rewriteNamed faults oldID newID ".sol.yaml" dir).bind
      (rewriteNamed faults oldID newID "docker-compose.yml")).map (rewriteCompose faults oldID newID)

namespace Server

variable (s : Server)

/-- The checks of `RestoreApp`: the backup, the target app's id and its row. -/
def request (backupID targetAppID : String) : Option (Backup × String × App) :=
  if !s.useRestic then none
  else
    (s.backups backupID).bind fun backup =>
      if !backup.restic || backup.snapshotID = "" then none
      else
        let target := if targetAppID = "" then backup.appID else targetAppID
        if target = "" then none else (s.apps target).map fun app => (backup, target, app)

/-- What restic restores. -/
def tmp : Dir := s.snapshot.content.under s.snapshot.appPath.names

/-- The app's new folder, or none where a step fails. -/
def rebuild (backup : Backup) (targetAppID : String) (appPath : AppPath) : Option Dir :=
  if faults.fails .makeTemp || faults.fails .restore || faults.fails .validate || faults.fails .makeApp ||
      faults.fails .readTemp then none
  else
    let moved :=
      match findRestoredAppDir faults s.root appPath s.tmp with
      | .failed => none
      | .nowhere => secureMove faults s.tmp
      | .at dir => if faults.fails .readRestored then none else secureMove faults dir
    moved.bind (rewriteInstanceID faults backup.appID targetAppID)

def restoreWithRestic (backup : Backup) (targetAppID : String) (appPath : AppPath) (app : Option Dir) : Outcome :=
  if faults.fails .findRepo || faults.fails .setAside then .error app
  else
    match app with
    | none => .error none
    | some old =>
      match s.rebuild faults backup targetAppID appPath with
      | some new => .restored new
      | none => if faults.fails .clear || faults.fails .putBack then .lost else .error (some old)

/-- `app` is the target's folder before the call. -/
def restoreApp (backupID targetAppID : String) (stopBeforeRestore : Bool) (app : Option Dir) : Outcome :=
  match s.request backupID targetAppID with
  | none => .error app
  | some (backup, target, row) =>
    if faults.fails .getBackup || faults.fails .findApp || (stopBeforeRestore && row.running && faults.fails .stopApp) then
      .error app
    else s.restoreWithRestic faults backup target row.path app

end Server

end LibreServ.RestoreApp
