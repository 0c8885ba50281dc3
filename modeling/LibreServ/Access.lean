import LibreServ.PrivateItems

/-! Who may do what: capabilities and grants from `access.rs`, live access to a path (`caps_on_path` of `auth.rs`)
and the list of people saved with a backup (`backup/access_list.rs`). Grants are stored under canonical paths, so a
grant has a list of segments here, innermost first, as every path of a drive has. -/

namespace LibreServ.Files

/-! ### Capabilities -/

/-- The bits of an `i64`. -/
abbrev Caps := BitVec 64

def capView : Caps := 1

def capUpload : Caps := 2

def capEdit : Caps := 4

def capShare : Caps := 16

def capAll : Caps := capView ||| capUpload ||| capEdit

/-- Everything an admin holds. -/
def capManage : Caps := capAll ||| capShare

inductive SubjectKind where
  | path
  | album
  deriving DecidableEq

structure AccessMember where
  userId : Text
  subjectKind : SubjectKind
  driveId : Text
  path : Path
  caps : Caps
  deriving DecidableEq

structure User where
  id : Text
  role : String
  deriving DecidableEq

def User.isAdmin (u : User) : Bool := u.role = "admin"

/-- What access is decided from. A drive that is not mounted has no state. -/
structure Db where
  users : List User
  deletedUsers : List Text
  members : List AccessMember
  drives : Text → Option Drive

def pathContains (parent child : Path) : Bool := parent.isSuffixOf child

/-- `normalize_subject_path`, on segments: blanks at either end of the whole path fall away. -/
def normalized (p : Path) : Path := segments (normalizeSubjectPath (spelled p))

inductive OwnerState where
  | active
  | deleted
  | foreign
  deriving DecidableEq

/-- The owner of a boundary nobody may cross. -/
def sealedOwner : Text := ['\x00']

/-! ### Live access -/

namespace Db

variable (db : Db)

def ownerState (owner : Text) : OwnerState :=
  if owner = sealedOwner then .deleted
  else if db.users.any (·.id = owner) then .active
  else if owner ∈ db.deletedUsers then .deleted
  else .foreign

def membersFor (user : Text) : List AccessMember := db.members.filter (·.userId = user)

def privateBoundary (drive : Text) (path : Path) : Option Boundary := do
  let d ← db.drives drive
  d.boundaryFor (d.realRel (normalized path))

/-- The capabilities of all rows together. -/
def union (rows : List AccessMember) : Caps := rows.foldl (fun caps r => caps ||| r.caps) 0

/-- Inside a private item the owner holds everything; anyone else only what grants between the boundary and the
path give them. -/
def privateCaps (user : User) (drive : Text) (path bPath : Path) (bOwner : Text) : Caps :=
  if bOwner = sealedOwner ∨ db.ownerState bOwner = .deleted then 0
  else if bOwner = user.id then capManage
  else if user.isAdmin ∧ db.ownerState bOwner = .foreign then capManage
  else union ((db.membersFor user.id).filter fun r => r.subjectKind = .path && r.driveId = drive &&
    (pathContains (normalized r.path) (normalized path) && pathContains bPath (normalized r.path)))

end Db

namespace Drive

variable (d : Drive)

/-- The private boundary recorded for a trash path. -/
def trashPrivateMeta (rel : Path) : Option TrashMeta := do
  if isTrashApi rel then
    let (entry, _) ← trashEntryParts (d.realRel rel)
    (d.trashMeta.get? entry).filter fun m => m.privateOwner ≠ []
  else none

/-- Where a trashed item came from; what lies inside it inherits that. -/
def trashOriginalPath (rel : Path) : Option Path := do
  if isTrashApi rel then
    let (entry, _) ← trashEntryParts (d.realRel rel)
    let found ← d.trashMeta.get? entry
    return rel.take (rel.length - 2) ++ segments found.originalPath
  else none

/-- The nearest folder at or above a path that exists. -/
def nearest : Path → Except PathError Path
  | [] => d.resolveChild []
  | seg :: rest =>
    match d.resolveChild (seg :: rest) with
    | .error .notFound => nearest rest
    | found => found

/-- A grant covers a path when it still does on disk. -/
def grantCoversCanonical (grant request : Path) : Bool :=
  let grantCanon := match d.resolveChild grant with
    | .ok p => p
    | .error _ => grant
  match d.nearest request with
  | .ok p => grantCanon.isSuffixOf p
  | .error _ => false

end Drive

namespace Db

variable (db : Db)

def memberRowCaps (user : User) (drive : Text) (path : Path) : Caps :=
  union ((db.membersFor user.id).filter fun r => r.subjectKind = .path && r.driveId = drive &&
    (pathContains r.path path && match db.drives drive with
      | some d => d.grantCoversCanonical (normalized r.path) (normalized path)
      | none => true))

/-- What is left to say of a path once the trash has been looked through. -/
def plainCaps (user : User) (drive : Text) (path : Path) : Caps :=
  match db.privateBoundary drive path with
  | some b => db.privateCaps user drive path b.path b.owner
  | none => if user.isAdmin then capManage else db.memberRowCaps user drive path

/-- The user's effective capability bits. A path in the trash answers to the private item it lies in, then to the one
it lay in when it was deleted, then to the grants of where it came from. -/
def capsOnPath (user : User) (drive : Text) (path : Path) : Caps :=
  if isTrashApi path then
    match db.privateBoundary drive path with
    | some b => db.privateCaps user drive path b.path b.owner
    | none =>
      match (db.drives drive).bind (·.trashPrivateMeta path) with
      | some found => db.privateCaps user drive path (segments found.privatePath) found.privateOwner
      | none =>
        match (db.drives drive).bind (·.trashOriginalPath path) with
        | some origin => db.plainCaps user drive origin
        | none => db.plainCaps user drive path
  else db.plainCaps user drive path

end Db

/-! ### The list saved with a backup -/

/-- The people who may see one backup. `admins` stands for the role, not for a set of people. -/
structure AccessList where
  users : List Text
  admins : Bool
  deriving DecidableEq

def AccessList.allows (l : AccessList) (user : User) : Bool := (l.admins && user.isAdmin) || user.id ∈ l.users

inductive PrivateSource where
  | shared
  | ownItem (owner : Text)
  | inside (owner : Text) (item : Path)
  | privateTrash
  deriving DecidableEq

/-- Texts in the order of a `BTreeSet`, each once. -/
def sortedSet (xs : List Text) : List Text := xs.dedup.insertionSort (· ≤ ·)

namespace Db

variable (db : Db)

/-- Users whose Read covers the source's root, and the Admins entry. -/
def forSource (drive : Text) (source : Path) : AccessList where
  users := sortedSet (((db.members.filter fun r => r.subjectKind = .path && r.driveId = drive &&
    (r.caps &&& capView ≠ 0 && pathContains (normalized r.path) (normalized source))).map (·.userId)).filter fun id =>
      db.users.any fun u => u.id = id && !u.isAdmin)
  admins := true

def privateSource (drive : Text) (path : Path) : PrivateSource :=
  match db.drives drive with
  | none => .shared
  | some d =>
    let norm := normalized path
    match d.boundaryFor (d.realRel norm) with
    | some b => if b.path = d.realRel norm then .ownItem b.owner else .inside b.owner b.path
    | none => if isTrashApi norm && (d.trashPrivateMeta (d.realRel norm)).isSome then .privateTrash else .shared

/-- The owner, and whoever has Read by a grant on the item itself. -/
def forPrivate (drive : Text) (item : Path) (owner : Text) : AccessList where
  users := sortedSet (owner :: ((db.members.filter fun r => r.subjectKind = .path && r.driveId = drive &&
    (r.caps &&& capView ≠ 0 && normalized r.path = normalized item)).map (·.userId)).filter fun id => db.users.any (·.id = id))
  admins := false

end Db

inductive ProtectionKind where
  | drive
  | cloud
  deriving DecidableEq

structure ProtectionRow where
  kind : ProtectionKind
  sourceDrive : Text
  sourcePath : Path
  targetDrive : Text
  privateOwner : Text
  deriving DecidableEq

namespace Db

variable (db : Db)

/-- The access list a saved backup should carry now. -/
def forRow (row : ProtectionRow) : AccessList :=
  if row.privateOwner = [] then db.forSource row.sourceDrive row.sourcePath
  else if row.kind = .cloud then ⟨[row.privateOwner], false⟩
  else
    match db.privateSource row.sourceDrive row.sourcePath with
    | .inside _ item => db.forPrivate row.sourceDrive item row.privateOwner
    | _ => db.forPrivate row.sourceDrive row.sourcePath row.privateOwner

/-- Why a private row must stop now. A drive that is not mounted gives no decision. -/
def privateStopReason (row : ProtectionRow) : Option String :=
  if row.privateOwner = [] ∨ (db.drives row.sourceDrive).isNone then none
  else
    match db.privateSource row.sourceDrive row.sourcePath with
    | .ownItem owner => if owner = row.privateOwner then none else some "This folder now belongs to someone else."
    | .inside owner _ => if owner = row.privateOwner then none else some "This folder now belongs to someone else."
    | .privateTrash => some "This folder is now in the trash."
    | .shared => some "This folder is no longer a private item."

def stopReason (row : ProtectionRow) : Option String :=
  let first :=
    if row.privateOwner = [] then
      match db.privateSource row.sourceDrive (normalized row.sourcePath) with
      | .shared => none
      | .ownItem _ => some "This folder is now a private item, so only its owner can back it up."
      | .inside _ _ => some "This folder is now inside a private item, so only its owner can back it up."
      | .privateTrash => some "This folder is now in the trash."
    else db.privateStopReason row
  match first with
  | some reason => some reason
  | none =>
    if row.sourceDrive = row.targetDrive then some "This folder is now on the backup drive itself." else none

end Db

end LibreServ.Files
