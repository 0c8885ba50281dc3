import LibreServ.FailedUndone

/-! Deleting the private items a deleted person owns, from `purge_orphan`, `owned_paths`, `purge_owned_path` and
`lift_out` in `private.rs`, `walk_nofollow` in `luna_core::path` and `forget_trash_entry` in `files/mod.rs`. Someone
else's item inside one of them is lifted out first, into the folder that one lay in. The list of what is left to delete
is read from the rows again before each turn. -/

namespace LibreServ.Files

open FileTree

/-- The order that the rows of a drive come out of their hash map. -/
structure RowOrder where
  rows : List (Path × Item) → List (Path × Item)
  perm : ∀ l, (rows l).Perm l

variable (e : Steps) (order : RowOrder) (driveId user : Text)

/-! ### Paths without links -/

namespace Drive

variable (s : Drive)

/-- `walk_nofollow`: is all of the path there? From the first name that is missing on, nothing more is looked at. No
entry is called `..`, so there is no such segment to refuse. -/
def walkNofollow (mayMiss : Bool) : Path → Except FilesError Bool
  | [] => .ok true
  | seg :: d => do
    if ← walkNofollow mayMiss d then
      match s.disk.get? (seg :: d) with
      | some .link => .error .escape
      | some _ => return true
      | none =>
        if ¬ s.isDir d then .error (.io "not a directory")
        else if mayMiss then return false
        else .error PathError.notFound.toFiles
    else return false

def resolveNofollow (mayMiss : Bool) (rel : Path) : Except FilesError Path := do
  let _ ← s.walkNofollow mayMiss (s.diskIn rel)
  return s.diskIn rel

/-- The path the API knows an item by. -/
def apiPath (p : Path) : Path :=
  if p ≠ [s.layout.trashName] ∧ p.getLast? = some s.layout.trashName then p.dropLast ++ [trashApiAlias] else p

end Drive

/-! ### What is owned -/

/-- The real paths of a person's items and trash entries, the outermost first. -/
def ownedPaths (s : Drive) : List Path :=
  let rows := (s.items.select fun _ item => item.owner = user).map Prod.fst
  let entries := if e.readsMeta then
    (s.trashMeta.select fun _ found => found.privateOwner = user).map fun r => [r.1, s.layout.trashName] else []
  ((rows ++ entries).dedup.insertionSort fun p q => spelled p ≤ spelled q).insertionSort fun p q => p.length ≤ q.length

/-- Someone else's items inside, the outermost first. -/
def othersWithin (path : Path) (s : Drive) : List Path :=
  (((order.rows s.items.rows).filter fun r => path.isSuffixOf r.1 && r.2.owner ≠ user).insertionSort
    fun a b => a.1.length ≤ b.1.length).map Prod.fst

/-! ### Lifting an item out -/

/-- `name`, `name (1)`, `name (2)`, … -/
def liftName (name : Text) (n : Nat) : Text :=
  if n = 0 then name else name ++ ' ' :: '(' :: Nat.toDigits 10 n ++ [')']

def liftTaken (dir : Path) (s : Drive) (name : Text) : Bool := s.siblingClash (name :: dir) || s.disk.taken (name :: dir)

structure LiftPlan where
  src : Path
  dest : Path
  newPath : Path

def liftPlan (f dir : Path) (s : Drive) : Except FilesError LiftPlan := do
  let src ← s.resolveNofollow false f
  let destDir ← s.resolveNofollow false dir
  match s.diskLeaf f with
  | none => .error (.io "no row")
  | some leaf =>
    let name := firstFree (liftTaken destDir s) (liftName (f.head?.getD []))
      (s.items.rows.length + s.disk.rows.length) 0
    return ⟨src, leaf :: destDir, name :: dir⟩

/-- The rows and the entry go back, as far as they can. -/
def takeLiftBack (f : Path) (p : LiftPlan) (s : Drive) : Drive :=
  let rows := if e.repaths then (repath p.newPath f s).toOption.getD s else s
  (renameNoreplace e.os p.dest p.src rows).toOption.getD rows

def orTakeBack (x : Act Unit) (undo : Drive → Drive) : Act Unit := fun w =>
  match x w with
  | .ok a w' => .ok a w'
  | .error err w' => .error err { w' with drive := undo w'.drive }

/-- The grants follow, in a transaction. -/
def movedSubjects (src dst : Path) : Act Unit := fun w =>
  match repathSubjects e driveId (spelled (w.drive.apiPath src)) (spelled (w.drive.apiPath dst)) w with
  | .ok a w' => .ok a w'
  | .error err w' => .error err { w' with subjects := w.subjects }

def liftOut (f dir : Path) : Act Unit := do
  let p ← reads (liftPlan f dir)
  onDrive (renameNoreplace e.os p.src p.dest)
  orTakeBack (do
    repathRows e f p.newPath
    movedSubjects e driveId f p.newPath) (takeLiftBack e f p)

/-- An item inside one that was lifted has gone along. -/
def liftEach (dir : Path) : List Path → List Path → Act Unit
  | [], _ => pure ()
  | f :: rest, lifted =>
    if lifted.any (·.isSuffixOf f) then liftEach dir rest lifted
    else do
      liftOut e driveId f dir
      liftEach dir rest (f :: lifted)

/-! ### Deleting what is owned -/

def removeOwned (path : Path) (s : Drive) : Except FilesError Drive := do
  let disk ← s.resolveNofollow true path
  if s.disk.get? disk = none then return removeUnder path s
  else if e.os.removes disk then return removeUnder path { s with disk := s.disk.prune disk }
  else .error (.io "cannot remove")

/-- Where the items inside go: from the trash, to the root. -/
def liftDir (path : Path) : Path := if isTrashRel path then [] else path.tail

def purgeOwnedPath (path : Path) : Act Unit := do
  let w ← get
  liftEach e driveId (liftDir path) (othersWithin order user path w.drive) []
  onDrive (removeOwned e path)

def forgetTrashEntry (api : Path) : Act Unit := do
  match canonicalPath (spelled api) with
  | .error _ => pure ()
  | .ok rel => do
    let w ← get
    if isTrashApi rel then forgetOriginIn e (w.drive.realRel rel) else pure ()

/-- Did the call go through? -/
def succeeds (x : Act Unit) : Act Bool := fun w =>
  match x w with
  | .ok _ w' => .ok true w'
  | .error _ w' => .ok false w'

/-- The loop over one drive; the answer is whether some turn failed. Without fuel there is none. -/
def purgeRounds : Nat → List Path → Bool → Act (Option Bool)
  | 0, _, _ => pure none
  | n + 1, attempted, failed => do
    let w ← get
    match (ownedPaths e user w.drive).find? (· ∉ attempted) with
    | none => return some failed
    | some path => do
      if ← succeeds (purgeOwnedPath e order driveId user path) then do
        let w ← get
        forgetTrashEntry e (w.drive.apiPath path)
        dropSubjectsUnder e driveId (spelled (w.drive.apiPath path))
        purgeRounds n (path :: attempted) failed
      else purgeRounds n (path :: attempted) true

/-! ### All drives -/

inductive DriveState where
  | asIs
  | readonly
  | other
  deriving DecidableEq

structure DriveRow where
  id : Text
  label : Text
  mounted : Bool
  state : DriveState
  drive : Drive

structure CleanupReport where
  skippedReadonly : List Text
  failedDrives : List Text
  offlineDrives : List Text

structure Cleanup where
  outcome : Except FilesError CleanupReport
  drives : List DriveRow
  subjects : SubjectTable → Table Text Subject

def Cleanup.after (d : DriveRow) (c : Cleanup) : Cleanup := { c with drives := d :: c.drives }

def purgeOrphan (fuel : Nat) : List DriveRow → (SubjectTable → Table Text Subject) → CleanupReport → Option Cleanup
  | [], subjects, report => some ⟨.ok report, [], subjects⟩
  | d :: rest, subjects, report =>
    if d.mounted = false ∨ d.state = .other then
      (purgeOrphan fuel rest subjects { report with offlineDrives := report.offlineDrives ++ [d.label] }).map (·.after d)
    else if d.state = .readonly then
      let skipped := if ownedPaths e user d.drive = [] then [] else [d.label]
      (purgeOrphan fuel rest subjects { report with skippedReadonly := report.skippedReadonly ++ skipped }).map (·.after d)
    else
      match purgeRounds e order d.id user fuel [] false ⟨d.drive, subjects⟩ with
      | .ok none _ => none
      | .error err w => some ⟨.error err, { d with drive := w.drive } :: rest, w.subjects⟩
      | .ok (some failed) w =>
        let failures := if failed then [d.label] else []
        (purgeOrphan fuel rest w.subjects { report with failedDrives := report.failedDrives ++ failures }).map
          (·.after { d with drive := w.drive })

end LibreServ.Files
