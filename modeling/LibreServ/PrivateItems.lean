import LibreServ.Paths
import LibreServ.Subtree

/-! Private folders of a drive, from `private.rs`, `files/mod.rs`, `luna_core::path` and the parts of
`api/forms.rs` that move a form's files. A private item stands on disk under a name made of the drive's prefix
and the item's id; the drive's database holds the path it is really called by, and every path is translated
before it reaches the disk. A canonical path is the list of its segments here, innermost first, and the drive's
root is a mount point, which the file system never renames. -/

namespace LibreServ.Files

open FileTree

abbrev Path := List Text

def segments (path : Text) : Path := ((split path).filter kept).reverse

def spelled (p : Path) : Text := join p.reverse

def canonicalPath (rel : Text) : Except FilesError Path := do
  return segments (← canonicalRel rel)

/-! ### Names that are Luna's own -/

def markerLead : Text := ".luna-".toList

def trashApiAlias : Text := ".luna-trash".toList

def isHexDigit (ch : Char) : Bool := '0' ≤ ch && ch ≤ '9' || 'a' ≤ ch && ch ≤ 'f' || 'A' ≤ ch && ch ≤ 'F'

/-- `Uuid::parse_str` on 36 characters. -/
def isUuid (s : Text) : Bool :=
  s.length = 36 && s.zipIdx.all fun r => if r.2 ∈ [8, 13, 18, 23] then r.1 = '-' else isHexDigit r.1

/-- The `.luna-<uuid>` a name starts with. -/
def extractPrefix (name : Text) : Option Text :=
  if markerLead.isPrefixOf name && isUuid ((name.drop 6).take 36) then some (name.take 42) else none

def isLunaName (name : Text) : Bool := (extractPrefix name).isSome

/-- The names Luna uses on one drive. -/
structure Layout where
  pfx : Text
  valid : extractPrefix pfx = some pfx

namespace Layout

variable (l : Layout)

def trashName : Text := l.pfx ++ "-trash".toList

def lead : Text := l.pfx ++ "-".toList

def diskName (id : Text) : Text := l.lead ++ id

end Layout

def isDiskId (id : Text) : Bool :=
  id.length = 26 && id.all fun ch => 'a' ≤ ch && ch ≤ 'z' || '2' ≤ ch && ch ≤ '7'

/-- What `new_id` returns. -/
abbrev ItemId := {id : Text // isDiskId id = true}

/-- Is `seg` an item's name on disk? -/
def Layout.isDiskName (l : Layout) (seg : Text) : Bool :=
  l.lead.isPrefixOf seg && isDiskId (seg.drop l.lead.length)

def isInternalTemp (p : Path) : Bool :=
  p.any isLunaName || p.head?.any fun base => ['.'].isPrefixOf base && ".part".toList.isSuffixOf base

def isTrashRel (rel : Path) : Bool :=
  rel.getLast?.any fun first => (extractPrefix first).any fun p => first = p ++ "-trash".toList

def isTrashApi (rel : Path) : Bool := rel.getLast? = some trashApiAlias

/-- The top-level trash entry, and whether the path goes further down inside it. -/
def trashEntryParts (rel : Path) : Option (Text × Bool) :=
  if isTrashRel rel then rel.dropLast.getLast?.map fun entry => (entry, 2 < rel.length) else none

def utf8Len (s : Text) : Nat := (s.map Char.utf8Size).sum

def safeName (name : Text) : Except FilesError Text :=
  if '/' ∈ name ∨ '\\' ∈ name ∨ '\x00' ∈ name then .error (.io "invalid file name")
  else if trim name = [] ∨ trim name = ['.'] ∨ trim name = ['.', '.'] ∨ 255 < utf8Len (trim name) then
    .error (.io "invalid file name")
  else if isLunaName (trim name) ∨ trim name = trashApiAlias then .error (.io "that name is reserved for Luna")
  else .ok (trim name)

/-- `str::split_once` at a dash. -/
def splitOnce (s : Text) : Option (Text × Text) :=
  match s.dropWhile (· ≠ '-') with
  | [] => none
  | _ :: rest => some (s.takeWhile (· ≠ '-'), rest)

/-- Trash entries are called `{unix}-{name}` or `{unix}-{n}-{name}`. -/
def originalNameFromTrash (trashName : Text) : Text :=
  match splitOnce trashName with
  | none => trashName
  | some (first, rest) =>
    if ¬ first.all Char.isDigit then trashName
    else
      match splitOnce rest with
      | none => rest
      | some (n, original) => if n.all Char.isDigit ∧ n ≠ [] then original else rest

def joinRel (dir name : Text) : Text :=
  let dir := (trimMatches isSlash dir).map fun ch => if ch = '\\' then '/' else ch
  let name := trimMatches isSlash name
  if dir = [] then name else dir ++ '/' :: name

/-! ### A drive -/

/-- A private item; its row is keyed by its real path. -/
structure Item where
  id : ItemId
  owner : Text
  deriving DecidableEq

structure TrashMeta where
  originalPath : Text
  privateOwner : Text
  privatePath : Text

structure Drive where
  layout : Layout
  disk : Tree Text (List UInt8)
  items : Table Path Item
  trashMeta : Table Text TrashMeta

/-- The nearest private item at or above a path. A path that spells out a name on disk is sealed: nobody owns it. -/
inductive Boundary where
  | item (path : Path) (owner : Text)
  | sealedOff (path : Path)

def Boundary.path : Boundary → Path
  | .item path _ => path
  | .sealedOff path => path

def Boundary.owner : Boundary → Text
  | .item _ owner => owner
  | .sealedOff _ => ['\x00']

inductive PathError where
  | notFound
  | escape

def PathError.toFiles : PathError → FilesError
  | .notFound => .io "path does not exist"
  | .escape => .escape

/-- What the file system lets through. It may refuse any change for reasons of its own. -/
structure Os where
  creates : Path → Bool
  renames : Path → Path → Bool
  removes : Path → Bool

namespace Drive

variable (s : Drive)

def itemAt (p : Path) : Option Item := s.items.get? p

def diskLeaf (p : Path) : Option Text := (s.items.get? p).map fun item => s.layout.diskName item.id

/-- The path on disk: every private segment is swapped for its name there. -/
def diskIn : Path → Path
  | [] => []
  | seg :: d => (s.diskLeaf (seg :: d)).getD seg :: diskIn d

def boundaryRec : Path → Option Boundary
  | [] => none
  | seg :: d =>
    match boundaryRec d with
    | some (.sealedOff p) => some (.sealedOff p)
    | found =>
      if s.layout.isDiskName seg then some (.sealedOff (seg :: d))
      else
        match s.items.get? (seg :: d) with
        | some item => some (.item (seg :: d) item.owner)
        | none => found

def boundaryFor (rel : Path) : Option Boundary := if s.items.rows = [] then none else s.boundaryRec rel

/-- The row of the item that has this name on disk. -/
def rowOf (seg : Text) : Option (Path × Item) := s.items.rows.find? fun r => s.layout.diskName r.2.id = seg

/-- The real path of a path on disk. -/
def logicalIn : Path → Path
  | [] => []
  | seg :: d =>
    match s.rowOf seg with
    | some r => r.1
    | none => seg :: logicalIn d

def resolvedOk (rel resolved : Path) : Bool :=
  s.items.rows = [] || (s.boundaryFor rel).map Boundary.path = (s.boundaryFor (s.logicalIn resolved)).map Boundary.path

def resolveChild (rel : Path) : Except PathError Path :=
  if rel = [] then .ok []
  else
    match s.disk.get? (s.diskIn rel) with
    | none => .error .notFound
    | some .link => .error .escape
    | some _ => if s.resolvedOk rel (s.diskIn rel) then .ok (s.diskIn rel) else .error .escape

def resolve (rel : Path) : Except FilesError Path :=
  match s.resolveChild rel with
  | .ok path => .ok path
  | .error e => .error e.toFiles

def isDir (path : Path) : Bool := path = [] || s.disk.get? path = some .dir

/-- Does a private item of this real name lie in the folder on disk? -/
def siblingClash : Path → Bool
  | [] => false
  | name :: dir => s.items.any fun p _ => p.head? = some name && s.diskIn p.tail = dir

def realRel (rel : Path) : Path := if isTrashApi rel then rel.dropLast ++ [s.layout.trashName] else rel

end Drive

def alreadyExists : FilesError := .io "entity already exists"

variable (os : Os)

/-- `create_dir`, and `create_new` for an empty file. -/
def createEntry (path : Path) (e : Entry (List UInt8)) (s : Drive) : Except FilesError Drive :=
  if s.disk.taken path then .error alreadyExists
  else if ¬ s.isDir path.tail ∨ os.creates path = false then .error (.io "cannot create")
  else .ok { s with disk := s.disk.put path e }

def renameNoreplace (src dst : Path) (s : Drive) : Except FilesError Drive :=
  if s.siblingClash dst ∨ s.disk.taken dst then .error alreadyExists
  else if src = [] ∨ s.disk.get? src = none ∨ src <:+ dst ∨ ¬ s.isDir dst.tail ∨ os.renames src dst = false then
    .error (.io "cannot rename")
  else .ok { s with disk := s.disk.relocate src dst }

/-! ### Rows -/

/-- The id and the path of a row are unique. -/
def createWithId (path : Path) (owner : Text) (id : ItemId) (s : Drive) : Except FilesError Drive :=
  if s.items.any (fun _ item => item.id = id) ∨ (s.items.get? path).isSome then .error (.io "constraint failed")
  else .ok { s with items := s.items.put path ⟨id, owner⟩ }

/-- Rows of the branch that moved get their new paths; a path that another row has is an error. -/
def repath (src dst : Path) (s : Drive) : Except FilesError Drive :=
  if src = dst then .ok s
  else if (s.items.select fun p _ => src.isSuffixOf p).any fun r =>
      (s.items.get? (Table.rebase src dst r.1)).isSome && !src.isSuffixOf (Table.rebase src dst r.1) then
    .error (.io "constraint failed")
  else .ok { s with items := s.items.relocate src dst }

def removeUnder (path : Path) (s : Drive) : Drive := { s with items := s.items.prune path }

/-! ### A form's files -/

-- The start of a BLAKE3 hash of the form's name, in hex.
variable (formHash : Text → Text)

def isFormPath (name : Text) : Bool := ".lunaform".toList.isSuffixOf (name.map Char.toLower)

def formDirName (l : Layout) (name : Text) : Text := l.pfx ++ "-form-".toList ++ formHash name

def filesDirNamed (l : Layout) (formPath : Path) (name : Text) : Path :=
  formDirName formHash l name :: formPath.tail

/-- The answers file a form has next to it, where everyone sees it. -/
def responsesName (name : Text) : Text :=
  '.' :: name.take (name.length - ".lunaform".length) ++ ".lunaform.responses".toList

def responsesPathNamed (formPath : Path) (name : Text) : Option Path :=
  match formPath with
  | [] => none
  | disk :: parent =>
    if ¬ isFormPath name then none
    else if isLunaName disk then some ((disk ++ ".responses".toList) :: parent)
    else some (responsesName name :: parent)

/-- For a top-level trash entry the answers file takes a name of Luna's. -/
def responsesFileNamed (l : Layout) (formPath : Path) (name : Text) : Option Path := do
  let visible ← responsesPathNamed formPath name
  if formPath.head?.any isLunaName then return visible
  else if formPath.tail.head? = some l.trashName then
    return (formDirName formHash l name ++ ".responses".toList) :: formPath.tail
  else return visible

def moveIfPresent (src dst : Path) (s : Drive) : Drive :=
  if src ≠ dst ∧ s.disk.taken src then
    match renameNoreplace os src dst s with
    | .ok s' => s'
    | .error _ => s
  else s

/-- The answers file goes along. -/
def moveResponses (src : Path) (srcName : Text) (dst : Path) (dstName : Text) (s : Drive) : Drive :=
  match responsesFileNamed formHash s.layout src srcName, responsesFileNamed formHash s.layout dst dstName with
  | some a, some b => moveIfPresent os a b s
  | _, _ => s

def repathFormFilesNamed (src : Path) (srcName : Text) (dst : Path) (dstName : Text) (s : Drive) : Drive :=
  if ¬ isFormPath srcName then s
  else
    moveResponses os formHash src srcName dst dstName (moveIfPresent os (filesDirNamed formHash s.layout src srcName)
      (filesDirNamed formHash s.layout dst dstName) s)

def leafName (path : Path) (s : Drive) : Option Text := do
  let name ← path.head?
  if isLunaName name then (s.rowOf name).bind fun r => r.1.head?
  else return name

def removeFormFiles (path : Path) (s : Drive) : Drive :=
  match leafName path s with
  | none => s
  | some name =>
    if ¬ isFormPath name then s
    else
      let dir := filesDirNamed formHash s.layout path name
      let s := if s.disk.get? dir ∈ [some .dir, some .link] ∧ os.removes dir then
          { s with disk := s.disk.prune dir }
        else s
      match responsesFileNamed formHash s.layout path name with
      | none => s
      | some file =>
        if s.disk.get? file ≠ some .dir ∧ os.removes file then { s with disk := s.disk.erase file } else s

/-! ### The calls -/

/-- A folder at `rel`, private to `owner` when given. The row comes first. -/
def mkdirAs (newId : ItemId) (rel : Text) (owner : Option Text) (s : Drive) : Except FilesError Drive := do
  let rel ← canonicalPath rel
  if rel = [] then .error (.io "cannot create the drive root")
  else if isInternalTemp rel ∨ isTrashApi rel then .error (.io "that name is reserved for Luna")
  else if ¬ s.isDir (s.diskIn rel).tail then .error (.io "parent folder does not exist")
  else
    match owner with
    | none => createEntry os (s.diskIn rel) .dir s
    | some owner =>
      if s.disk.taken (s.diskIn rel) ∨ (s.itemAt rel).isSome then .error alreadyExists
      else do
        let s ← createWithId rel owner newId s
        createEntry os (s.diskIn rel) .dir s

/-- An empty file at `rel`. -/
def create (rel : Text) (s : Drive) : Except FilesError Drive := do
  let rel ← canonicalPath rel
  match rel with
  | [] => .error (.io "cannot create at the drive root without a name")
  | leaf :: _ => do
    let _ ← safeName leaf
    if isInternalTemp rel then .error (.io "that name is reserved for Luna")
    else if ¬ s.isDir (s.diskIn rel).tail then .error (.io "parent folder does not exist")
    else createEntry os (s.diskIn rel) (.file []) s

/-- A top-level trash entry keeps the `{nonce}-` its name starts with. -/
def renamedTo (rel : Path) (newName : Text) : Text :=
  match trashEntryParts rel with
  | some (entry, false) => entry.take (entry.length - (originalNameFromTrash entry).length) ++ newName
  | _ => newName

/-- The origin of a top-level trash entry gets the new name too. -/
def retitle (rel : Path) (newName : Text) (s : Drive) : Drive :=
  match trashEntryParts rel with
  | some (entry, false) =>
    match s.trashMeta.get? entry with
    | none => s
    | some found =>
      let parent := if '/' ∈ found.originalPath then
        (found.originalPath.rdropWhile (· ≠ '/')).dropLast else []
      let changed := { found with originalPath := joinRel parent newName }
      { s with trashMeta := (s.trashMeta.put (renamedTo rel newName) changed).erase entry }
  | _ => s

/-- A private item keeps its entry on disk. -/
def renameOnDisk (rel newReal path dest : Path) (s : Drive) : Except FilesError Drive :=
  if (s.diskLeaf rel).isSome then
    if (s.resolveChild newReal).isOk then .error alreadyExists else .ok s
  else renameNoreplace os path dest s

def rename (rel newName : Text) (s : Drive) : Except FilesError Drive := do
  let newName ← safeName newName
  if isInternalTemp [newName] then .error (.io "that name is reserved for Luna")
  else do
    let apiRel ← canonicalPath rel
    let rel := s.realRel apiRel
    if isTrashRel rel ∧ ¬ isTrashApi apiRel then .error (.io "not found")
    else if isInternalTemp rel ∧ ¬ isTrashRel rel then .error (.io "not found")
    else if isTrashRel rel ∧ (trashEntryParts rel).isNone then .error (.io "can't rename the trash itself")
    else do
      let path ← s.resolve rel
      let destName := renamedTo rel newName
      let newReal := destName :: rel.tail
      let dest := (s.diskLeaf rel).getD destName :: path.tail
      if (s.itemAt newReal).isSome then .error alreadyExists
      else do
        let s' ← renameOnDisk os rel newReal path dest s
        let s' ← repath rel newReal s'
        let s' := repathFormFilesNamed os formHash path (rel.head?.getD []) dest destName s'
        return retitle rel newName s'

/-- An entry that leaves the trash loses its origin. -/
def forgetOrigin (rel : Path) (s : Drive) : Drive :=
  match trashEntryParts rel with
  | some (entry, false) => { s with trashMeta := s.trashMeta.erase entry }
  | _ => s

/-- A private item keeps its name on disk wherever it lands. -/
def moveTarget (src dst : Path) (s : Drive) : Path :=
  match s.diskLeaf src with
  | some leaf => leaf :: (s.diskIn dst).tail
  | none => s.diskIn dst

def moveRel (src dst : Text) (s : Drive) : Except FilesError Drive := do
  let apiSrc ← canonicalPath src
  let apiDst ← canonicalPath dst
  let src := s.realRel apiSrc
  let dst := s.realRel apiDst
  if isTrashRel src ∧ ¬ isTrashApi apiSrc then .error (.io "not found")
  else if (isInternalTemp src ∧ ¬ isTrashRel src) ∨ isInternalTemp dst ∨
      (isTrashRel src ∧ (trashEntryParts src).isNone) then .error (.io "that name is reserved for Luna")
  else do
    let path ← s.resolve src
    if dst = src ∨ (src ≠ [] ∧ src <:+ dst) then .error (.io "can't move an item into itself")
    else if ¬ s.isDir (s.diskIn dst).tail then .error (.io "destination folder does not exist")
    else if (s.diskLeaf src).isSome ∧ (s.resolveChild dst).isOk then .error alreadyExists
    else if (s.itemAt dst).isSome then .error alreadyExists
    else do
      let target := moveTarget src dst s
      let s ← renameNoreplace os path target s
      let s ← repath src dst s
      let s := repathFormFilesNamed os formHash path (src.head?.getD []) target (dst.head?.getD []) s
      return forgetOrigin src s

def trashEntryName (now n : Nat) (name : Text) : Text :=
  if n = 0 then Nat.toDigits 10 now ++ '-' :: name
  else Nat.toDigits 10 now ++ '-' :: Nat.toDigits 10 n ++ '-' :: name

/-- What stands in the way of an entry of this name in the trash. -/
def trashTaken (leaf : Option Text) (s : Drive) (entry : Text) : Bool :=
  (s.itemAt [entry, s.layout.trashName]).isSome || s.disk.taken [entry, s.layout.trashName] ||
    leaf.isNone && s.siblingClash [entry, s.layout.trashName]

/-- The path rows, origins and grants are looked up by. -/
def trashedRel (rel : Path) : Text := trimMatches isSlash (trim (spelled rel))

/-- The first name for an entry that nothing has. -/
def trashSlot (now : Nat) (leaf : Option Text) (name : Text) (s : Drive) : Text :=
  firstFree (trashTaken leaf s) (fun n => trashEntryName now n name) (s.items.rows.length + s.disk.rows.length) 0

/-- The rest of `delete_to_trash`, once the trash is there. -/
def intoTrash (now : Nat) (rel path : Path) (name : Text) (s : Drive) : Except FilesError (Path × Drive) := do
  let trashRel := trashedRel rel
  let leaf := s.diskLeaf (segments trashRel)
  let name := if leaf.isSome then (split trashRel).getLast?.getD name else name
  let entry := trashSlot now leaf name s
  let dest := [leaf.getD entry, s.layout.trashName]
  if trashTaken leaf s entry then .error alreadyExists
  else do
    let s ← renameNoreplace os path dest s
    let provenance := s.boundaryFor (segments trashRel)
    let s ← repath (segments trashRel) [entry, s.layout.trashName] s
    let s := repathFormFilesNamed os formHash path name dest entry s
    let origin : TrashMeta :=
      { originalPath := trashRel
        privateOwner := (provenance.map Boundary.owner).getD []
        privatePath := (provenance.map fun b => spelled b.path).getD [] }
    return ([entry, trashApiAlias], { s with trashMeta := s.trashMeta.put entry origin })

def deleteToTrash (now : Nat) (rel : Text) (s : Drive) : Except FilesError (Path × Drive) := do
  let apiRel ← canonicalPath rel
  let rel := s.realRel apiRel
  if isInternalTemp rel then .error (.io "not found")
  else do
    let path ← s.resolve rel
    match path with
    | [] => .error (.io "cannot trash the drive root")
    | name :: _ =>
      match Tree.mkdirs [s.layout.trashName] s.disk with
      | none => .error (.io "cannot create")
      | some disk => intoTrash os formHash now rel path name { s with disk := disk }

/-- The folders that do not exist yet, from the outermost one. -/
def makeMissingParents : Path → Drive → Except FilesError Drive
  | [], s => .ok s
  | seg :: d, s => do
    let s ← makeMissingParents d s
    match s.resolveChild (seg :: d) with
    | .ok path => if s.isDir path then .ok s else .error (.io "not a directory")
    | .error .notFound =>
      if (s.itemAt (seg :: d)).isSome ∨ (s.boundaryFor (seg :: d)).isSome then .error PathError.notFound.toFiles
      else createEntry os (seg :: d) .dir s
    | .error .escape => .error .escape

def restoreFromTrash (trashRel dest : Text) (s : Drive) : Except FilesError Drive := do
  let trashApi ← canonicalPath trashRel
  let dest ← canonicalPath dest
  let trashRel := s.realRel trashApi
  match trashEntryParts trashRel with
  | some (entry, false) =>
    if ¬ isTrashApi trashApi then .error (.io "not a trash item")
    else if isTrashRel dest ∨ isInternalTemp dest ∨ isTrashApi dest then .error (.io "cannot restore into trash")
    else do
      let src ← s.resolve trashRel
      match dest with
      | [] => .error (.io "invalid restore name")
      | name :: parent => do
        let destName ← safeName name
        let leaf := s.diskLeaf trashRel
        if (s.itemAt dest).isSome ∨ (leaf.isSome ∧ (s.resolveChild dest).isOk) then .error alreadyExists
        else do
          let s ← makeMissingParents os parent s
          let parent ← s.resolve parent
          let target := leaf.getD destName :: parent
          let s ← renameNoreplace os src target s
          let s ← repath trashRel dest s
          let s := repathFormFilesNamed os formHash src entry target destName s
          return { s with trashMeta := s.trashMeta.erase entry }
  | _ => .error (.io "not a trash item")

def purgeTrash (trashRel : Text) (s : Drive) : Except FilesError Drive := do
  let trashApi ← canonicalPath trashRel
  if ¬ isTrashApi trashApi then .error (.io "not a trash item")
  else
    let trashRel := s.realRel trashApi
    match trashEntryParts trashRel with
    | none => .error (.io "not a trash item")
    | some _ => do
      let path ← s.resolve trashRel
      if os.removes path = false then .error (.io "cannot remove")
      else
        let removed := { s with disk := s.disk.prune path }
        let s := if s.disk.get? path = some .dir then removed else removeFormFiles os formHash path removed
        return forgetOrigin trashRel (removeUnder trashRel s)

inductive Call where
  | mkdirAs (rel : Text) (owner : Option Text)
  | create (rel : Text)
  | rename (rel newName : Text)
  | moveRel (src dst : Text)
  | deleteToTrash (rel : Text)
  | restoreFromTrash (trashRel dest : Text)
  | purgeTrash (trashRel : Text)

/-- What a call meets: the file system, the clock and the id it draws. -/
structure Env where
  os : Os
  now : Nat
  newId : ItemId

def Call.run (env : Env) : Call → Drive → Except FilesError Drive
  | .mkdirAs rel owner => Files.mkdirAs env.os env.newId rel owner
  | .create rel => Files.create env.os rel
  | .rename rel newName => Files.rename env.os formHash rel newName
  | .moveRel src dst => Files.moveRel env.os formHash src dst
  | .deleteToTrash rel => fun s => (Files.deleteToTrash env.os formHash env.now rel s).map Prod.snd
  | .restoreFromTrash trashRel dest => Files.restoreFromTrash env.os formHash trashRel dest
  | .purgeTrash trashRel => Files.purgeTrash env.os formHash trashRel

end LibreServ.Files
