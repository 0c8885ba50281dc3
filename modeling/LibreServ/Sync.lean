import LibreServ.FileTree
import LibreServ.Paths
import LibreServ.Sections

/-! Two-way folder sync of the desktop app: `sync_once` in `desktop/src/sync.rs` with the calls it makes
(`walk_remote_files`, `download_file`, `upload_file` and `delete_path` in `desktop/src/luna.rs`) and what
Luna does on each of them. A pass reads both sides once, then goes through every path either side or
the ledger knows, in the order a hash set gives. What the outside decides (a call that fails, the stop
flag, the time a written file is given, the folders that cannot be read) is the input of a section.

Paths are relative to the two folders of the pair, innermost name first; `root` is the pair's folder on
the drive. -/

namespace LibreServ.Sync

open FileTree Sections LibreServ.Files

abbrev Path := List Text

structure File where
  content : List UInt8
  mtime : Int
  deriving DecidableEq

def File.size (f : File) : Nat := f.content.length

structure LedgerEntry where
  size : Nat
  localMtime : Int
  remoteMtime : Int
  deriving DecidableEq

/-- What `walk_local` keeps of a file: `(PathBuf, u64, i64)`. -/
structure LocalEntry where
  path : Path
  size : Nat
  mtime : Int
  deriving DecidableEq

structure FileEntry where
  size : Nat
  modified : Int
  deriving DecidableEq

structure State where
  disk : Tree Text File
  remote : Tree Text File
  /-- Luna's trash: what `DELETE /files` takes away lands there. -/
  trash : List File
  ledger : Table Path LedgerEntry

structure Input where
  stop : Bool := false
  /-- The call fails, with this text. -/
  error : Option String := none
  /-- A request that failed was carried out all the same. -/
  landed : Bool := false
  /-- The modification time given to a file that is written. -/
  mtime : Int := 0
  /-- What a download that broke off left in its temporary file. -/
  part : Option (List UInt8) := none
  /-- Local paths that cannot be read. -/
  unread : List Path := []
  /-- Folders Luna does not list, with the error. -/
  failing : List (Path × String) := []
  stamp : Nat := 0

inductive Label where
  | walkRemote
  | walkLocal
  | ledgerKeys
  | poll
  | look (rel : Path)
  | setAside (rel : Path)
  | download (rel : Path)
  | putBack (rel : Path)
  | stat (rel : Path)
  | startUpload (rel : Path)
  | finishUpload (rel : Path)
  | quarantine (rel : Path)
  | delete (rel : Path)
  | record (rel : Path)
  | forget (rel : Path)
  deriving DecidableEq

/-- The section reads and changes nothing. -/
def Label.quiet : Label → Bool
  | .walkRemote | .walkLocal | .ledgerKeys | .poll | .look _ => true
  | _ => false

abbrev Job := Prog Label Input State String

/-! ### Names -/

def hidden (name : Text) : Bool := name.head? = some '.'

def validRemoteName (name : Text) : Bool :=
  name ≠ [] && name ≠ ['.'] && name ≠ ['.', '.'] && !name.contains '/' && !name.contains '\\' &&
    !name.contains '\x00'

/-- `file_stem` and `extension` of a file name. -/
def splitExtension (name : Text) : Text × Option Text :=
  if name = ['.', '.'] then (name, none)
  else
    match name.reverse.span (· ≠ '.') with
    | (_, []) => (name, none)
    | (ext, _ :: stem) => if stem = [] then (name, none) else (stem.reverse, some ext.reverse)

def dotExtension : Option Text → Text
  | none => []
  | some ext => '.' :: ext

def fromFileName (f : Text → Text) : Path → Path
  | [] => []
  | name :: dir => f name :: dir

/-- The file a download is written to before it is renamed to `dest`. -/
def tempOf (dest : Path) : Path :=
  fromFileName (fun name => (splitExtension name).1 ++ '.' :: "luna-download-tmp".toList) dest

def conflictPath (path : Path) : Path :=
  fromFileName (fun name =>
    (splitExtension name).1 ++ " (conflict from this computer)".toList ++
      dotExtension (splitExtension name).2) path

def numbered (path : Path) (n : Nat) : Path :=
  fromFileName (fun name =>
    (splitExtension name).1 ++ ' ' :: Nat.toDigits 10 n ++ dotExtension (splitExtension name).2) path

/-- `path`, or its first numbered sibling that does not exist. -/
def freeSibling (disk : Tree Text File) (path : Path) : Path :=
  if disk.taken path then firstFree disk.taken (numbered path) ([] :: disk.keys).length 2 else path

def freeConflictPath (disk : Tree Text File) (path : Path) : Path := freeSibling disk (conflictPath path)

def freeTrashPath (disk : Tree Text File) (dest : Path) : Path := freeSibling disk dest

/-- Remote path for the conflict copy: the folder of `rel`, the name of the copy. -/
def conflictRel (rel copy : Path) : Path := copy.headD "conflict".toList :: rel.tail

/-- `join_under`: a path from Luna, refused when a segment could leave the folder. -/
def localPath (rel : Path) : Except String Path :=
  if rel ≠ [] ∧ rel.all validRemoteName then .ok rel
  else .error "Luna listed a file name this computer can't store. Sync stopped."

/-- `files::safe_name` on Luna: blanks at the ends of a name go. -/
def safeName (name : Text) : Option Text :=
  if name.contains '/' || name.contains '\\' || name.contains '\x00' then none
  else if trim name = [] ∨ trim name = ['.'] ∨ trim name = ['.', '.'] then none
  else some (trim name)

/-- Where Luna puts an upload to `rel`, relative to the pair's folder `root` on the drive. -/
def lunaPath (root rel : Path) : Option Path :=
  match safeName (rel.headD []), canonicalRel (join (rel.tail ++ root).reverse) with
  | some name, .ok dir =>
    let dirs := if dir = [] then [] else (split dir).reverse
    some (name :: dirs.take (dirs.length - root.length))
  | _, _ => none

def trashDir (stamp : Nat) : Path := [Nat.toDigits 10 stamp, ".luna-desktop-trash".toList]

/-! ### The walks -/

/-- The path as the walk spells it: a backslash in a name counts as a slash. -/
def relOf (path : Path) : Path := path.flatMap fun name => (name.splitOn '\\').reverse

def takesLocal (unread : List Path) (path : Path) : Bool :=
  !hidden (path.headD []) && !(path ∈ unread)

/-- `walk_local_rec`: a folder that cannot be read counts as empty. -/
def localFiles (unread : List Path) (disk : Tree Text File) : List (Path × File) :=
  match walk (ε := Empty) disk (fun d => .ok (!(d ∈ unread))) (fun p => .ok (takesLocal unread p)) with
  | .ok files => files
  | .error e => e.elim

def walkLocal (unread : List Path) (disk : Tree Text File) : Table Path LocalEntry :=
  Table.ofList ((localFiles unread disk).map fun r => (relOf r.1, ⟨r.1, r.2.size, r.2.mtime⟩))

def lists (failing : List (Path × String)) (dir : Path) : Except String Bool :=
  match failing.lookup dir with
  | some e => .error e
  | none => .ok true

def takesRemote (path : Path) : Except String Bool :=
  if hidden (path.headD []) then .ok false
  else if validRemoteName (path.headD []) then .ok true
  else .error "Luna listed a file name this computer can't store. Sync stopped."

/-- `walk_remote_rec`: a folder that cannot be listed, or a bad name, ends the walk with an error. -/
def walkRemoteFiles (failing : List (Path × String)) (remote : Tree Text File) :
    Except String (Table Path FileEntry) :=
  (walk remote (lists failing) takesRemote).map fun files =>
    Table.ofList (files.map fun r => (r.1, ⟨r.2.size, r.2.mtime⟩))

/-! ### The calls -/

def nameTaken : String := "A file with this name is already here. Rename it or choose another."

def badRequest : String := "Something went wrong talking to Luna. http status: 400"

def movedAside : String := "Couldn't move the removed file aside on this computer."

def notFound : String :=
  "Luna couldn't find this drive or file. Ensure that the drive is plugged in. If it is, try unplugging it and plugging it back in."

/-- `download_file`: the bytes go to a temporary file that is then renamed to `dest`. -/
def download (rel dest : Path) (i : Input) (s : State) : Except String Unit × State :=
  match s.remote.file? rel, Tree.mkdirs dest.tail s.disk with
  | none, _ => (.error notFound, s)
  | _, none => (.error "Couldn't create a folder on this computer for the download.", s)
  | some f, some disk =>
    if disk.get? (tempOf dest) = some .dir ∨ disk.get? (tempOf dest) = some .link then
      (.error "Couldn't write the downloaded file on this computer.", { s with disk := disk })
    else
      match i.error, i.part with
      | some e, none => (.error e, s)
      | some e, some part => (.error e, { s with disk := disk.put (tempOf dest) (.file ⟨part, i.mtime⟩) })
      | none, _ =>
        if disk.get? dest = some .dir then
          (.error "Couldn't save the downloaded file on this computer.",
            { s with disk := disk.put (tempOf dest) (.file ⟨f.content, i.mtime⟩) })
        else
          (.ok (), { s with disk := (disk.erase (tempOf dest)).put dest (.file ⟨f.content, i.mtime⟩) })

def downloadFile (rel dest : Path) : Job Unit := Prog.tryAct (.download rel) (download rel dest)

section Calls

variable (root : Path)

/-- `POST /uploads`: Luna makes the folder, and refuses a name that is taken: the request carries no
`on_conflict`, whatever the upload is going to ask for at its end. -/
def start (path rel : Path) (i : Input) (s : State) : Except String Unit × State :=
  match s.disk.file? path, i.error, lunaPath root rel with
  | none, _, _ => (.error "Couldn't read that file on this computer.", s)
  | _, some e, _ => (.error e, s)
  | _, _, none => (.error badRequest, s)
  | some _, none, some place =>
    if s.remote.taken place then (.error nameTaken, s)
    else
      match Tree.mkdirs place.tail s.remote with
      | none => (.error badRequest, s)
      | some remote => (.ok (), { s with remote := remote })

/-- The chunks and `POST /uploads/{id}/complete`. -/
def finish (path rel : Path) (overwrite : Bool) (i : Input) (s : State) : Except String Unit × State :=
  match s.disk.file? path, lunaPath root rel with
  | none, _ => (.error "Couldn't open that file on this computer.", s)
  | _, none => (.error badRequest, s)
  | some f, some place =>
    if s.remote.taken place ∧ (!overwrite ∨ (s.remote.file? place).isNone) then (.error nameTaken, s)
    else
      let done := { s with remote := s.remote.put place (.file ⟨f.content, i.mtime⟩) }
      match i.error with
      | some e => (.error e, if i.landed then done else s)
      | none => (.ok (), done)

def uploadFile (path rel : Path) (overwrite : Bool) : Job Unit := do
  Prog.tryAct (.startUpload rel) (start root path rel)
  Prog.tryAct (.finishUpload rel) (finish root path rel overwrite)

end Calls

/-- `DELETE /files`: Luna moves the file to its trash. -/
def toTrash (rel : Path) (i : Input) (s : State) : Except String Unit × State :=
  match s.remote.file? rel with
  | none => (.error notFound, s)
  | some f =>
    let done := { s with remote := s.remote.erase rel, trash := f :: s.trash }
    match i.error with
    | some e => (.error e, if i.landed then done else s)
    | none => (.ok (), done)

def deletePath (rel : Path) : Job Unit := Prog.tryAct (.delete rel) (toTrash rel)

/-- `rename` on the local disk. -/
def State.rename (s : State) (source target : Path) : State :=
  { s with disk := s.disk.moveFile source target }

/-- The file lands in the pair's trash, under its path and a name that is free. -/
def quarantineLocal (path rel : Path) (i : Input) (s : State) : Except String State :=
  if ¬ (rel ≠ [] ∧ rel.all validRemoteName) then .error movedAside
  else
    match Tree.mkdirs (rel ++ trashDir i.stamp).tail s.disk, i.error, s.disk.file? path with
    | some disk, none, some _ =>
      .ok (State.rename { s with disk := disk } path (freeTrashPath disk (rel ++ trashDir i.stamp)))
    | _, _, _ => .error movedAside

/-! ### A pass -/

/-- What a pass does about one path. -/
inductive Arm where
  | conflict (mine : LocalEntry) (theirs : FileEntry)
  | upload (mine : LocalEntry) (overwrite : Bool)
  | download (theirs : FileEntry)
  | adopt (mine : LocalEntry) (theirs : FileEntry)
  | quarantine (mine : LocalEntry)
  | delete
  | forget
  | nothing
  deriving DecidableEq

def localChanged (mine : LocalEntry) (prev : LedgerEntry) : Bool :=
  mine.size ≠ prev.size || mine.mtime ≠ prev.localMtime

def remoteChanged (theirs : FileEntry) (prev : LedgerEntry) : Bool :=
  theirs.size ≠ prev.size || theirs.modified ≠ prev.remoteMtime

/-- The `match` of `sync_once`. -/
def armOf : Option LocalEntry → Option FileEntry → Option LedgerEntry → Arm
  | some mine, some theirs, some prev =>
    if localChanged mine prev && remoteChanged theirs prev then .conflict mine theirs
    else if localChanged mine prev then .upload mine true
    else if remoteChanged theirs prev then .download theirs
    else .nothing
  | some mine, some theirs, none =>
    if mine.size = theirs.size ∧ (mine.mtime - theirs.modified).natAbs ≤ 2 then .adopt mine theirs
    else if theirs.modified ≤ mine.mtime then .upload mine true
    else .download theirs
  | some mine, none, some _ => .quarantine mine
  | some mine, none, none => .upload mine false
  | none, some _, some _ => .delete
  | none, some theirs, none => .download theirs
  | none, none, some _ => .forget
  | none, none, none => .nothing

def record (rel : Path) (entry : LedgerEntry) : Job Unit :=
  Prog.act (.record rel) fun _ s => ((), { s with ledger := s.ledger.put rel entry })

def forget (rel : Path) : Job Unit :=
  Prog.act (.forget rel) fun _ s => ((), { s with ledger := s.ledger.erase rel })

/-- `metadata(&dest)` after a download. -/
def stat (rel dest : Path) : Job (Option File) := Prog.look (.stat rel) fun _ s => s.disk.file? dest

/-- The local file moves to a free conflict name, which is returned. -/
def moveAside (path : Path) (i : Input) (s : State) : Except String Path × State :=
  match i.error, s.disk.file? path with
  | none, some _ => (.ok (freeConflictPath s.disk path), s.rename path (freeConflictPath s.disk path))
  | _, _ => (.error "Couldn't set aside the changed file on this computer.", s)

def setAside (rel path : Path) : Job Path := Prog.tryAct (.setAside rel) (moveAside path)

/-- The copy moves back; a failure is ignored. -/
def putBack (rel copy path : Path) : Job Unit :=
  Prog.act (.putBack rel) fun i s => ((), if i.error = none then s.rename copy path else s)

/-- A download and the ledger entry for it. -/
def fetch (rel : Path) (theirs : FileEntry) : Job Unit := do
  let dest ← Prog.ofExcept (localPath rel)
  downloadFile rel dest
  match ← stat rel dest with
  | some f => record rel ⟨f.size, f.mtime, theirs.modified⟩
  | none => Prog.fail "Couldn't read the downloaded file."

section Pass

variable (root : Path)

/-- Both sides changed: the local file is set aside, the remote one takes its place, and the copy is
uploaded as a new file. -/
def keepBoth (rel : Path) (mine : LocalEntry) (theirs : FileEntry) : Job Unit := do
  let copy ← setAside rel mine.path
  let dest ← Prog.ofExcept (localPath rel)
  match ← (downloadFile rel dest).attempt with
  | .error e =>
    putBack rel copy mine.path
    Prog.fail e
  | .ok () =>
    let f ← stat rel dest
    record rel ⟨theirs.size, f.elim theirs.modified File.mtime, theirs.modified⟩
    let _ ← (uploadFile root copy (conflictRel rel copy) false).attempt
    return ()

def syncPath (rel : Path) : Arm → Job Unit
  | .conflict mine theirs => keepBoth root rel mine theirs
  | .upload mine overwrite => do
    uploadFile root mine.path rel overwrite
    record rel ⟨mine.size, mine.mtime, mine.mtime⟩
  | .download theirs => fetch rel theirs
  | .adopt mine theirs => record rel ⟨mine.size, mine.mtime, theirs.modified⟩
  | .quarantine mine => do
    let moved ← Prog.act (.quarantine rel) fun i s =>
      match quarantineLocal mine.path rel i s with
      | .ok s' => (true, s')
      | .error _ => (false, s)
    if moved then forget rel else return ()
  | .delete => do
    deletePath rel
    forget rel
  | .forget => forget rel
  | .nothing => return ()

variable (mine : Table Path LocalEntry) (theirs : Table Path FileEntry)

/-- The loop of `sync_once`. The flag is read before each path, the ledger as it is by then. -/
def syncPaths : List Path → Job Unit
  | [] => return ()
  | rel :: rest => do
    let stopped ← Prog.look .poll fun i _ => i.stop
    match stopped with
    | true => return ()
    | false =>
      let prev ← Prog.look (.look rel) fun _ s => s.ledger.get? rel
      syncPath root rel (armOf (mine.get? rel) (theirs.get? rel) prev)
      syncPaths rest

/-- Every path that one of the three maps knows, once. -/
def allPaths (mine : Table Path LocalEntry) (theirs : Table Path FileEntry) (ledger : List Path) : List Path :=
  (theirs.keys ++ mine.keys ++ ledger).dedup

/-- One pass; `order` is the order in which the hash set gives its elements. -/
def syncOnce (order : List Path → List Path) : Job Unit := do
  let theirs ← Prog.tryAct .walkRemote fun i s => (walkRemoteFiles i.failing s.remote, s)
  let mine ← Prog.look .walkLocal fun i s => walkLocal i.unread s.disk
  let ledger ← Prog.look .ledgerKeys fun _ s => s.ledger.keys
  syncPaths root mine theirs (order (allPaths mine theirs ledger))

end Pass

/-! ### What each call does -/

section Specs

variable (root rel dest path : Path) (i : Input) (s : State)

theorem download_cases : (∃ e, download rel dest i s = (.error e, s)) ∨
      ∃ disk, Tree.mkdirs dest.tail s.disk = some disk ∧
        ((∃ e, download rel dest i s = (.error e, { s with disk := disk })) ∨ disk.get? (tempOf dest) ≠ some .dir ∧
            ((∃ e part, download rel dest i s =
                (.error e, { s with disk := disk.put (tempOf dest) (.file ⟨part, i.mtime⟩) })) ∨
              ∃ f, s.remote.file? rel = some f ∧ disk.get? dest ≠ some .dir ∧ download rel dest i s =
                  (.ok (), { s with disk := (disk.erase (tempOf dest)).put dest (.file ⟨f.content, i.mtime⟩) }))) := by
  unfold download
  cases hf : s.remote.file? rel with
  | none => exact .inl ⟨_, rfl⟩
  | some f =>
    cases hd : Tree.mkdirs dest.tail s.disk with
    | none => exact .inl ⟨_, rfl⟩
    | some disk =>
      dsimp only
      by_cases htmp : disk.get? (tempOf dest) = some .dir ∨ disk.get? (tempOf dest) = some .link
      · rw [if_pos htmp]
        exact .inr ⟨disk, rfl, .inl ⟨_, rfl⟩⟩
      rw [if_neg htmp]
      rw [not_or] at htmp
      cases he : i.error with
      | some e =>
        cases hp : i.part with
        | none => exact .inl ⟨e, rfl⟩
        | some part => exact .inr ⟨disk, rfl, .inr ⟨htmp.1, .inl ⟨e, part, rfl⟩⟩⟩
      | none =>
        by_cases hdest : disk.get? dest = some .dir
        · rw [if_pos hdest]
          exact .inr ⟨disk, rfl, .inr ⟨htmp.1, .inl ⟨_, f.content, rfl⟩⟩⟩
        · rw [if_neg hdest]
          exact .inr ⟨disk, rfl, .inr ⟨htmp.1, .inr ⟨f, rfl, hdest, rfl⟩⟩⟩

/-- An upload starts only where nothing stands yet. -/
theorem start_cases : (∃ e, start root path rel i s = (.error e, s)) ∨
      ∃ place remote, lunaPath root rel = some place ∧ s.remote.taken place = false ∧
        Tree.mkdirs place.tail s.remote = some remote ∧
        start root path rel i s = (.ok (), { s with remote := remote }) := by
  unfold start
  cases hf : s.disk.file? path with
  | none => exact .inl ⟨_, rfl⟩
  | some f =>
    cases he : i.error with
    | some e => exact .inl ⟨e, rfl⟩
    | none =>
      cases hp : lunaPath root rel with
      | none => exact .inl ⟨_, rfl⟩
      | some place =>
        dsimp only
        cases ht : s.remote.taken place with
        | true => exact .inl ⟨nameTaken, rfl⟩
        | false =>
          cases hm : Tree.mkdirs place.tail s.remote with
          | none => exact .inl ⟨badRequest, rfl⟩
          | some remote => exact .inr ⟨place, remote, rfl, ht, hm, by simp only [Bool.false_eq_true, if_false]⟩

theorem finish_cases (overwrite : Bool) : (∃ e, finish root path rel overwrite i s = (.error e, s)) ∨
      ∃ f place r, s.disk.file? path = some f ∧ lunaPath root rel = some place ∧
        (s.remote.taken place = true → (s.remote.file? place).isSome = true) ∧
        finish root path rel overwrite i s =
          (r, { s with remote := s.remote.put place (.file ⟨f.content, i.mtime⟩) }) := by
  unfold finish
  cases hf : s.disk.file? path with
  | none => exact .inl ⟨_, rfl⟩
  | some f =>
    cases hp : lunaPath root rel with
    | none => exact .inl ⟨_, rfl⟩
    | some place =>
      dsimp only
      by_cases ht : s.remote.taken place ∧ (!overwrite ∨ (s.remote.file? place).isNone)
      · rw [if_pos ht]
        exact .inl ⟨nameTaken, rfl⟩
      rw [if_neg ht]
      have hfile : s.remote.taken place = true → (s.remote.file? place).isSome = true := by
        intro htaken
        by_contra hsome
        exact ht ⟨htaken, .inr (by simpa using hsome)⟩
      cases he : i.error with
      | none => exact .inr ⟨f, place, .ok (), rfl, rfl, hfile, rfl⟩
      | some e =>
        cases hl : i.landed with
        | true => exact .inr ⟨f, place, .error e, rfl, rfl, hfile, rfl⟩
        | false => exact .inl ⟨e, rfl⟩

theorem toTrash_cases : (∃ e, toTrash rel i s = (.error e, s)) ∨ ∃ f r, s.remote.file? rel = some f ∧
        toTrash rel i s = (r, { s with remote := s.remote.erase rel, trash := f :: s.trash }) := by
  unfold toTrash
  cases hf : s.remote.file? rel with
  | none => exact .inl ⟨_, rfl⟩
  | some f =>
    cases he : i.error with
    | none => exact .inr ⟨f, .ok (), rfl, rfl⟩
    | some e =>
      cases hl : i.landed with
      | true => exact .inr ⟨f, .error e, rfl, rfl⟩
      | false => exact .inl ⟨e, rfl⟩

theorem moveAside_cases : (∃ e, moveAside path i s = (.error e, s)) ∨ ∃ f, s.disk.file? path = some f ∧
        moveAside path i s =
          (.ok (freeConflictPath s.disk path), s.rename path (freeConflictPath s.disk path)) := by
  unfold moveAside
  cases he : i.error with
  | some e => exact .inl ⟨_, rfl⟩
  | none =>
    cases hf : s.disk.file? path with
    | none => exact .inl ⟨_, rfl⟩
    | some f => exact .inr ⟨f, rfl, rfl⟩

variable {rel path i s} in
theorem quarantineLocal_ok {t : State} (h : quarantineLocal path rel i s = .ok t) :
    ∃ disk f, rel ≠ [] ∧ Tree.mkdirs (rel ++ trashDir i.stamp).tail s.disk = some disk ∧ s.disk.file? path = some f ∧
      t = State.rename { s with disk := disk } path (freeTrashPath disk (rel ++ trashDir i.stamp)) := by
  unfold quarantineLocal at h
  split at h
  · cases h
  · next hvalid =>
      split at h
      · next disk f hdisk _ hf => exact ⟨disk, f, (not_not.mp hvalid).1, hdisk, hf, (Except.ok.inj h).symm⟩
      · cases h

end Specs

end LibreServ.Sync
