import LibreServ.PrivateCalls

/-! What a call that fails leaves behind. `rename`, `move_rel`, `delete_to_trash` and `restore_from_trash` write to
the disk, to the drive's own database and to the central one, where `access.rs` keeps the grants, one after the
other. Here each of these steps may fail, and the state stays as the failing step found it. -/

namespace LibreServ.Files

open FileTree

/-! ### The stores -/

/-- What a move or a delete reads of a grant. -/
structure Subject where
  isPath : Bool
  drive : Text
  path : Text
  deriving DecidableEq

/-- The tables of `SUBJECT_TABLES`. -/
inductive SubjectTable where
  | members
  | links
  deriving DecidableEq

structure Stores where
  drive : Drive
  subjects : SubjectTable → Table Text Subject

/-- One tree, and the same rows. -/
structure Drive.Same (s s' : Drive) : Prop where
  disk : ∀ p, s.disk.get? p = s'.disk.get? p
  items : ∀ p, s.items.get? p = s'.items.get? p
  trashMeta : ∀ entry, s.trashMeta.get? entry = s'.trashMeta.get? entry

structure Stores.Same (w w' : Stores) : Prop where
  drive : w.drive.Same w'.drive
  subjects : ∀ table id, (w.subjects table).get? id = (w'.subjects table).get? id

/-- Which steps go through. A statement that does not has changed nothing. -/
structure Steps where
  os : Os
  repaths : Bool
  readsMeta : Bool
  writesMeta : Bool
  removesMeta : Bool
  /-- `forwarding::record` and `recents::repath`. -/
  forwards : Bool
  selects : SubjectTable → Bool
  /-- The `UPDATE` or the `DELETE` of one row. -/
  rows : SubjectTable → Text → Bool

/-- A call that keeps the stores as they are when it fails. -/
abbrev Act := EStateM FilesError Stores

def step (goes : Bool) : Act Unit := if goes then pure () else throw (.io "database error")

/-- What a call reads before it changes anything. -/
def reads {α : Type} (check : Drive → Except FilesError α) : Act α := fun w =>
  match check w.drive with
  | .ok a => .ok a w
  | .error err => .error err w

def onDrive (f : Drive → Except FilesError Drive) : Act Unit := fun w =>
  match f w.drive with
  | .ok s => .ok () { w with drive := s }
  | .error err => .error err w

def change (f : Drive → Drive) : Act Unit := fun w => .ok () { w with drive := f w.drive }

/-- The step, and what puts the disk back when it fails; putting back goes through. -/
def orUndo (x : Act Unit) (undo : Tree Text (List UInt8) → Tree Text (List UInt8)) : Act Unit := fun w =>
  match x w with
  | .ok a w' => .ok a w'
  | .error err w' => .error err { w' with drive := { w'.drive with disk := undo w'.drive.disk } }

variable (e : Steps)

/-! ### Grants -/

/-- The rows of one table that a path covers. -/
def matching (driveId path : Text) (t : Table Text Subject) : List Text :=
  (t.select fun _ r => r.isPath && r.drive = driveId && containsText path (normalizeSubjectPath r.path)).map Prod.fst

def onTable (table : SubjectTable) (f : Table Text Subject → Table Text Subject) : Act Unit := fun w =>
  .ok () { w with subjects := Function.update w.subjects table (f (w.subjects table)) }

def eachRow (table : SubjectTable) (write : Text → Table Text Subject → Table Text Subject) : List Text → Act Unit
  | [] => pure ()
  | id :: ids => do
    step (e.rows table id)
    onTable table (write id)
    eachRow table write ids

def inTable (driveId path : Text) (write : Text → Table Text Subject → Table Text Subject) (table : SubjectTable) :
    Act Unit := do
  step (e.selects table)
  let w ← get
  eachRow e table write (matching driveId path (w.subjects table))

/-- `UPDATE … SET drive_id, path WHERE id`: what follows the old path stays. -/
def retarget (driveId oldPath newPath id : Text) (t : Table Text Subject) : Table Text Subject :=
  t.update fun k r =>
    if k = id then
      { r with drive := driveId, path := newPath ++ (normalizeSubjectPath r.path).drop oldPath.length }
    else r

def repathSubjects (driveId oldPath newPath : Text) : Act Unit := do
  let oldPath := normalizeSubjectPath oldPath
  let newPath := normalizeSubjectPath newPath
  if oldPath = [] then pure ()
  else do
    step e.forwards
    inTable e driveId oldPath (retarget driveId oldPath newPath) .members
    inTable e driveId oldPath (retarget driveId oldPath newPath) .links

def dropSubjectsUnder (driveId path : Text) : Act Unit := do
  let path := normalizeSubjectPath path
  if path = [] then pure ()
  else do
    inTable e driveId path (fun id t => t.erase id) .members
    inTable e driveId path (fun id t => t.erase id) .links

/-! ### Steps of the four calls -/

def writeTrashMeta (entry : Text) (origin : TrashMeta) : Act Unit := do
  step e.writesMeta
  change fun s => { s with trashMeta := s.trashMeta.put entry origin }

def removeTrashMeta (entry : Text) : Act Unit :=
  if e.removesMeta then change fun s => { s with trashMeta := s.trashMeta.erase entry } else pure ()

/-- Where an item goes: by its real paths, on disk, and by the names a form's files are looked up by. -/
structure Carry where
  src : Path
  dst : Path
  path : Path
  target : Path
  srcName : Text
  dstName : Text
  /-- A private item that gets another name keeps its entry on disk. -/
  stays : Bool

def Carry.onDisk (os : Os) (c : Carry) (s : Drive) : Except FilesError Drive :=
  if c.stays then .ok s else renameNoreplace os c.path c.target s

def Carry.back (c : Carry) (t : Tree Text (List UInt8)) : Tree Text (List UInt8) :=
  if c.stays then t else t.relocate c.target c.path

def repathRows (src dst : Path) : Act Unit :=
  if src = dst then pure ()
  else do
    step e.repaths
    onDrive (repath src dst)

variable (formHash : Text → Text)

def Carry.forms (os : Os) (c : Carry) (s : Drive) : Drive :=
  repathFormFilesNamed os formHash c.path c.srcName c.target c.dstName s

/-- The item on disk, then the rows; without its rows it goes back. A form's files follow as far as they can. -/
def carry (c : Carry) (undo : Tree Text (List UInt8) → Tree Text (List UInt8)) : Act Unit := do
  orUndo (onDrive (c.onDisk e.os)) undo
  orUndo (repathRows e c.src c.dst) fun t => undo (c.back t)
  change (c.forms formHash e.os)

/-! ### Renaming -/

structure RenamePlan where
  apiRel : Path
  newName : Text
  carry : Carry

def renamePlan (rel newName : Text) (s : Drive) : Except FilesError RenamePlan := do
  let newName ← safeName newName
  if isInternalTemp [newName] then .error (.io "that name is reserved for Luna")
  else do
    let apiRel ← canonicalPath rel
    let rel := s.realRel apiRel
    if isTrashRel rel ∧ ¬ isTrashApi apiRel then .error (.io "not found")
    else if isInternalTemp rel ∧ ¬ isTrashRel rel then .error (.io "not found")
    else if isTrashRel rel ∧ (trashEntryParts rel).isNone then .error (.io "can't rename the trash itself")
    else do
      let path ← s.resolve rel
      let destName := renamedTo rel newName
      let newReal := destName :: rel.tail
      let dest := (s.diskLeaf rel).getD destName :: path.tail
      if (s.itemAt newReal).isSome then .error alreadyExists
      else if (s.diskLeaf rel).isSome ∧ (s.resolveChild newReal).isOk then .error alreadyExists
      else return ⟨apiRel, newName, rel, newReal, path, dest, rel.head?.getD [], destName, (s.diskLeaf rel).isSome⟩

/-- The origin of a top-level trash entry is written under its new name, then the old one goes. -/
def retitleIn (rel : Path) (newName : Text) : Act Unit := do
  let w ← get
  match trashEntryParts rel with
  | some (entry, false) =>
    match if e.readsMeta then w.drive.trashMeta.get? entry else none with
    | none => pure ()
    | some found => do
      let parent := if '/' ∈ found.originalPath then
        (found.originalPath.rdropWhile (· ≠ '/')).dropLast else []
      writeTrashMeta e (renamedTo rel newName) { found with originalPath := joinRel parent newName }
      removeTrashMeta e entry
  | _ => pure ()

def renameIn (driveId rel newName : Text) : Act Unit := do
  let p ← reads (renamePlan rel newName)
  carry e formHash p.carry id
  -- Grants are on the paths of the API.
  repathSubjects e driveId (spelled p.apiRel) (joinRel (spelled p.apiRel.tail) p.carry.dstName)
  retitleIn e p.carry.src p.newName

/-! ### Moving -/

structure MovePlan where
  apiSrc : Path
  apiDst : Path
  carry : Carry

def movePlan (src dst : Text) (s : Drive) : Except FilesError MovePlan := do
  let apiSrc ← canonicalPath src
  let apiDst ← canonicalPath dst
  let src := s.realRel apiSrc
  let dst := s.realRel apiDst
  if isTrashRel src ∧ ¬ isTrashApi apiSrc then .error (.io "not found")
  else if (isInternalTemp src ∧ ¬ isTrashRel src) ∨ isInternalTemp dst ∨
      (isTrashRel src ∧ (trashEntryParts src).isNone) then .error (.io "that name is reserved for Luna")
  else do
    let path ← s.resolve src
    if dst = src ∨ (src ≠ [] ∧ src <:+ dst) then .error (.io "can't move an item into itself")
    else if ¬ s.isDir (s.diskIn dst).tail then .error (.io "destination folder does not exist")
    else if (s.diskLeaf src).isSome ∧ (s.resolveChild dst).isOk then .error alreadyExists
    else if (s.itemAt dst).isSome then .error alreadyExists
    else return ⟨apiSrc, apiDst, src, dst, path, moveTarget src dst s, src.head?.getD [], dst.head?.getD [], false⟩

def forgetOriginIn (rel : Path) : Act Unit :=
  match trashEntryParts rel with
  | some (entry, false) => removeTrashMeta e entry
  | _ => pure ()

def moveIn (driveId src dst : Text) : Act Unit := do
  let p ← reads (movePlan src dst)
  carry e formHash p.carry id
  forgetOriginIn e p.carry.src
  repathSubjects e driveId (spelled p.apiSrc) (spelled p.apiDst)

/-! ### Deleting -/

structure TrashPlan where
  rel : Path
  path : Path
  name : Text

def trashPlan (rel : Text) (s : Drive) : Except FilesError TrashPlan := do
  let apiRel ← canonicalPath rel
  let rel := s.realRel apiRel
  if isInternalTemp rel then .error (.io "not found")
  else do
    let path ← s.resolve rel
    match path with
    | [] => .error (.io "cannot trash the drive root")
    | name :: _ => return ⟨rel, path, name⟩

/-- `create_dir_all` of the trash. -/
def makeTrash (os : Os) (s : Drive) : Except FilesError Drive :=
  if s.disk.get? [s.layout.trashName] = none ∧ os.creates [s.layout.trashName] = false then
    .error (.io "cannot create")
  else
    match Tree.mkdirs [s.layout.trashName] s.disk with
    | none => .error (.io "cannot create")
    | some disk => .ok { s with disk := disk }

/-- What goes where, once the trash is there. -/
structure Entering where
  entry : Text
  origin : TrashMeta
  carry : Carry

def entering (now : Nat) (t : TrashPlan) (s : Drive) : Except FilesError Entering :=
  let trashRel := trashedRel t.rel
  let leaf := s.diskLeaf (segments trashRel)
  let name := if leaf.isSome then (split trashRel).getLast?.getD t.name else t.name
  let entry := trashSlot now leaf name s
  let provenance := s.boundaryFor (segments trashRel)
  if trashTaken leaf s entry then .error alreadyExists
  else
    .ok
      { entry := entry
        origin :=
          { originalPath := trashRel
            privateOwner := (provenance.map Boundary.owner).getD []
            privatePath := (provenance.map fun b => spelled b.path).getD [] }
        carry := ⟨segments trashRel, [entry, s.layout.trashName], t.path, [leaf.getD entry, s.layout.trashName], name,
          entry, false⟩ }

def deleteIn (now : Nat) (driveId rel : Text) : Act Unit := do
  let t ← reads (trashPlan rel)
  onDrive (makeTrash e.os)
  let into ← reads (entering now t)
  carry e formHash into.carry id
  writeTrashMeta e into.entry into.origin
  dropSubjectsUnder e driveId into.origin.originalPath

/-! ### Restoring -/

/-- `remove_dir`. -/
def removeDir (t : Tree Text (List UInt8)) (p : Path) : Tree Text (List UInt8) :=
  if t.children p = [] then t.erase p else t

/-- The folders that were made, deepest first. -/
def removeMadeFolders (made : List Path) (t : Tree Text (List UInt8)) : Tree Text (List UInt8) :=
  made.foldl removeDir t

def takeBack {α : Type} (made : List Path) (err : FilesError) : Act α := fun w =>
  .error err { w with drive := { w.drive with disk := removeMadeFolders made w.drive.disk } }

/-- The folders that do not exist yet, from the outermost one. -/
def makeMissingParentsIn : Path → Act (List Path)
  | [] => pure []
  | seg :: d => do
    let made ← makeMissingParentsIn d
    let w ← get
    match w.drive.resolveChild (seg :: d) with
    | .ok path => if w.drive.isDir path then pure made else takeBack made (.io "not a directory")
    | .error .notFound =>
      if (w.drive.itemAt (seg :: d)).isSome ∨ (w.drive.boundaryFor (seg :: d)).isSome then
        takeBack made PathError.notFound.toFiles
      else do
        orUndo (onDrive (createEntry e.os (seg :: d) .dir)) (removeMadeFolders made)
        return (seg :: d) :: made
    | .error .escape => takeBack made .escape

structure RestorePlan where
  entry : Text
  trashRel : Path
  dest : Path
  src : Path
  destName : Text
  leaf : Option Text

def restorePlan (trashRel dest : Text) (s : Drive) : Except FilesError RestorePlan := do
  let trashApi ← canonicalPath trashRel
  let dest ← canonicalPath dest
  let trashRel := s.realRel trashApi
  match trashEntryParts trashRel with
  | some (entry, false) =>
    if ¬ isTrashApi trashApi then .error (.io "not a trash item")
    else if isTrashRel dest ∨ isInternalTemp dest ∨ isTrashApi dest then .error (.io "cannot restore into trash")
    else do
      let src ← s.resolve trashRel
      match dest with
      | [] => .error (.io "invalid restore name")
      | name :: _ => do
        let destName ← safeName name
        let leaf := s.diskLeaf trashRel
        if (s.itemAt dest).isSome ∨ (leaf.isSome ∧ (s.resolveChild dest).isOk) then .error alreadyExists
        else return ⟨entry, trashRel, dest, src, destName, leaf⟩
  | _ => .error (.io "not a trash item")

/-- The parent, once its folders are there. -/
def resolveOr (rel : Path) (made : List Path) : Act Path := fun w =>
  match w.drive.resolve rel with
  | .ok path => .ok path w
  | .error err => takeBack made err w

def restoreIn (trashRel dest : Text) : Act Unit := do
  let p ← reads (restorePlan trashRel dest)
  let made ← makeMissingParentsIn e p.dest.tail
  let parent ← resolveOr p.dest.tail made
  carry e formHash
    ⟨p.trashRel, p.dest, p.src, p.leaf.getD p.destName :: parent, p.entry, p.destName, false⟩ (removeMadeFolders made)
  removeTrashMeta e p.entry

end LibreServ.Files
