import LibreServ.FileTree
import LibreServ.Paths

/-! A drive backup's files on its target drive, from `drive_store.rs`. The newest copy of a file stands under
`current/`, earlier ones under `versions/<time>/`, and the manifest remembers when the source dropped a file. Each
step on the disk may go through, find the disk full, fail, or be the last one before a crash. -/

namespace LibreServ.DriveBackup

open Files (Text split join)
open FileTree

/-- The drive a backup is kept on. Where it ignores capitals, two names with one `name_key` are one name. -/
structure Target where
  label : Text
  caseInsensitive : Bool
  maxFile : Option Nat
  /-- `str::to_lowercase`. -/
  lower : Text → Text
  /-- It leaves numbers as they are. -/
  numbers : ∀ (before after : Text) (m n : Nat), lower (before ++ '(' :: Nat.toDigits 10 m ++ ')' :: after) =
    lower (before ++ '(' :: Nat.toDigits 10 n ++ ')' :: after) → m = n

namespace Target

variable (k : Target)

def nameKey (rel : Text) : Text := if k.caseInsensitive then k.lower rel else rel

/-- Where the drive keeps a file of this name, innermost segment first. -/
def place (rel : Text) : List Text := (split (k.nameKey rel)).reverse

end Target

/-- A file on the target, with the spelling it was saved under. -/
structure Copy where
  name : Text
  bytes : List UInt8
  mtime : Int
  deriving DecidableEq

/-- What a run reads of the manifest. -/
structure Manifest where
  lastOkAt : Int
  deleted : Table Text Int
  pausedSecs : Int
  pausedSince : Int

def deletedKeepSecs : Int := 30 * 86400

def mtimeToleranceSecs : Int := 2

namespace Manifest

variable (m : Manifest)

def fresh : Manifest := ⟨0, Table.empty, 0, 0⟩

/-- Wall time without the stretches in which the source was away. -/
def clock (now : Int) : Int :=
  let currentFreeze := if 0 < m.pausedSince then max (now - m.pausedSince) 0 else 0
  now - m.pausedSecs - currentFreeze

def resume (now : Int) : Manifest :=
  if m.pausedSince ≠ 0 then
    { m with pausedSecs := m.pausedSecs + max (now - m.pausedSince) 0, pausedSince := 0 }
  else m

def forget (rel : Text) : Manifest := { m with deleted := m.deleted.erase rel }

end Manifest

structure Store where
  current : Tree Text Copy
  versions : Table Int (Tree Text Copy)
  manifest : Option Manifest

namespace Store

variable (s : Store)

def empty : Store := ⟨Table.empty, Table.empty, none⟩

/-- The folder `versions/<t>`. -/
def version (t : Int) : Tree Text Copy := (s.versions.get? t).getD Table.empty

end Store

/-! ### Steps on the disk -/

inductive Outcome where
  | goes
  | full
  | fails
  | crash

/-- Why a run stops. -/
inductive Stop where
  | full
  | notFound
  | io
  | crash
  deriving DecidableEq

/-- Contents that came under `current/`, and what thinning took out of `versions/`. -/
inductive Event where
  | completed (place : List Text) (bytes : List UInt8)
  | thinned (t : Int) (place : List Text) (bytes : List UInt8)
  deriving DecidableEq

structure RunOutcome where
  notes : List Text
  copied : Nat
  unchanged : Nat
  removed : Nat

/-- A run under way: the disk, the manifest in memory, how the next steps end, and what has happened so far. -/
structure Run where
  store : Store
  manifest : Manifest
  outcome : RunOutcome
  outcomes : List Outcome
  log : List Event

abbrev Act := EStateM Stop Run

def next : Act Outcome := fun r =>
  match r.outcomes with
  | [] => .ok .goes r
  | o :: rest => .ok o { r with outcomes := rest }

/-- A step that reads. -/
def reads {α : Type} (f : Store → Except Stop α) : Act α := do
  match ← next with
  | .goes => fun r =>
      match f r.store with
      | .ok a => .ok a r
      | .error e => .error e r
  | .full => throw .full
  | .fails => throw .io
  | .crash => throw .crash

/-- A step that writes. -/
def writes (f : Store → Except Stop Store) (events : Store → List Event) : Act Unit := do
  match ← next with
  | .goes => fun r =>
      match f r.store with
      | .ok s => .ok () { r with store := s, log := r.log ++ events r.store }
      | .error e => .error e r
  | .full => throw .full
  | .fails => throw .io
  | .crash => throw .crash

def setManifest (f : Manifest → Manifest) : Act Unit := fun r => .ok () { r with manifest := f r.manifest }

def count (f : RunOutcome → RunOutcome) : Act Unit := fun r => .ok () { r with outcome := f r.outcome }

/-- What an error leads to; after a crash nothing happens any more. -/
def onError {α : Type} (x : Act α) (handle : Stop → Act α) : Act α := fun r =>
  match x r with
  | .ok a r' => .ok a r'
  | .error .crash r' => .error .crash r'
  | .error e r' => handle e r'

def whenever (c : Bool) (x : Act Unit) : Act Unit := if c then x else pure ()

/-- The step, whether it goes through or not. -/
def try' (x : Act Unit) : Act Unit := onError x fun _ => pure ()

/-! ### Names -/

/-- `rel_segments`, then the place of the name. -/
def relPlace (k : Target) (rel : Text) : Act (List Text) := fun r =>
  if rel = [] ∨ (split rel).any fun seg => seg = [] || seg = ['.'] || seg = ['.', '.'] || '\x00' ∈ seg then
    .error .io r
  else .ok (k.place rel) r

/-- The names of the store's own temporary files. -/
def isTempName (name : Text) : Bool := ['.'].isPrefixOf name && name.tails.any fun rest => ".tmp-".toList.isPrefixOf rest

/-- `walk_files`: what lies under a temporary name is left out. -/
def walkFiles (t : Tree Text Copy) : List Text :=
  t.rows.filterMap fun r =>
    match r.2 with
    | .file copy => if (split copy.name).any isTempName then none else some copy.name
    | _ => none

def currentFiles (s : Store) : List Text := (walkFiles s.current).insertionSort (· ≤ ·)

def versionTimes (s : Store) : List Int := s.versions.keys.insertionSort (· ≤ ·)

/-! ### Saving and dropping a file -/

/-- What the source has when a file's turn comes. -/
structure Source where
  len : Nat
  mtime : Int
  bytes : List UInt8
  /-- The file can still be opened once its size is known. -/
  opens : Bool

inductive Put where
  | unchanged
  | added
  | updated
  deriving DecidableEq

def sameMtime (a b : Int) : Bool := (a - b).natAbs ≤ mtimeToleranceSecs

/-- Size and time tell copies apart. -/
def matchesSource (copy : Copy) (src : Source) : Bool :=
  copy.bytes.length = src.len && sameMtime copy.mtime src.mtime

def makeParents (place : List Text) (s : Store) : Except Stop Store :=
  match s.current.mkdirs place.tail with
  | some t => .ok { s with current := t }
  | none => .error .io

def makeVersionParents (now : Int) (place : List Text) (s : Store) : Except Stop Store :=
  match (s.version now).mkdirs place.tail with
  | some t => .ok { s with versions := s.versions.put now t }
  | none => .error .io

/-- `rename` of `current/<rel>` to `versions/<now>/<rel>`. A version that stood there is replaced. -/
def moveToVersion (now : Int) (place : List Text) (s : Store) : Except Stop Store :=
  match s.current.file? place with
  | none => .error .io
  | some copy =>
    match (s.version now).get? place with
    | some .dir => .error .io
    | _ => .ok { s with
        current := s.current.erase place
        versions := s.versions.put now ((s.version now).put place (.file copy)) }

/-- The way back. -/
def moveFromVersion (now : Int) (place : List Text) (s : Store) : Except Stop Store :=
  match (s.version now).file? place with
  | none => .error .io
  | some copy => .ok { s with
      current := s.current.put place (.file copy)
      versions := s.versions.put now ((s.version now).erase place) }

/-- The staged copy gets its name. -/
def persist (place : List Text) (copy : Copy) (s : Store) : Except Stop Store :=
  if s.current.get? place = some .dir then .error .io
  else .ok { s with current := s.current.put place (.file copy) }

/-- `stage_copy`, which leaves nothing behind unless the copy is persisted. -/
def stageCopy (src : Source) : Act Unit := fun r =>
  if src.opens then reads (fun _ => .ok ()) r else .error .notFound r

variable (k : Target) (now : Int)

/-- What the store holds under a name; anything but a file is in the way. -/
def existing (place : List Text) (s : Store) : Except Stop (Option Copy) :=
  match s.current.get? place with
  | some (.file copy) => .ok (some copy)
  | some _ => .error .io
  | none => .ok none

/-- The copy is complete before the earlier one moves; if it cannot be put in place the earlier one goes back. -/
def install (place : List Text) (copy : Copy) (replaces : Bool) : Act Unit :=
  onError (writes (persist place copy) fun _ => [.completed place copy.bytes]) fun e => do
    whenever replaces (try' (writes (moveFromVersion now place) fun _ => []))
    throw e

def put (rel : Text) (src : Source) : Act Put := do
  let place ← relPlace k rel
  writes (makeParents place) fun _ => []
  match ← reads (existing place) with
  | some copy =>
    if matchesSource copy src then return .unchanged
    else do
      stageCopy src
      writes (makeVersionParents now place) fun _ => []
      writes (moveToVersion now place) fun _ => []
      install now place ⟨rel, src.bytes, src.mtime⟩ true
      return .updated
  | none => do
    stageCopy src
    install now place ⟨rel, src.bytes, src.mtime⟩ false
    return .added

/-- `prune_empty_parents`: the folders above a place, from the innermost, as long as they are empty. -/
def pruneParents : List Text → Tree Text Copy → Tree Text Copy
  | [], t => t
  | n :: d, t =>
    if t.get? (n :: d) = some .dir ∧ t.children (n :: d) = [] then pruneParents d (t.erase (n :: d)) else t

def remove (rel : Text) : Act Bool := do
  let place ← relPlace k rel
  match ← reads (existing place) with
  | none => return false
  | some _ => do
    writes (makeVersionParents now place) fun _ => []
    writes (moveToVersion now place) fun _ => []
    fun r => .ok true { r with store := { r.store with current := pruneParents place.tail r.store.current } }

/-! ### Thinning -/

/-- `keep_versions`: of each age, the oldest. -/
def keepVersions (times : List Int) : List Int :=
  let young := times.filter fun t => now - t ≤ 86400
  let week := times.filter fun t => 86400 < now - t && now - t ≤ 7 * 86400
  let month := times.filter fun t => 7 * 86400 < now - t && now - t ≤ 31 * 86400
  young.min?.toList ++ week.min?.toList ++ month.min?.toList

/-- `remove_file_if_exists` of one version. -/
def eraseVersion (t : Int) (place : List Text) (s : Store) : Store :=
  match (s.version t).file? place with
  | some _ => { s with versions := s.versions.put t ((s.version t).erase place) }
  | none => s

def removeVersion (t : Int) (rel : Text) : Act Nat := do
  let place ← relPlace k rel
  let r ← get
  writes (fun s => .ok (eraseVersion t place s)) fun s =>
    ((s.version t).file? place).toList.map fun copy => .thinned t place copy.bytes
  return if ((r.store.version t).file? place).isSome then 1 else 0

/-- Every version: the time and the name. -/
def allVersions (s : Store) : List (Int × Text) :=
  (versionTimes s).flatMap fun t => (walkFiles (s.version t)).map fun rel => (t, rel)

def timesOf (found : List (Int × Text)) (rel : Text) : List Int :=
  (found.filter fun v => v.2 = rel).map Prod.fst

def removeVersions (rel : Text) : List Int → Act Nat
  | [] => pure 0
  | t :: rest => do
    let n ← removeVersion k t rel
    let m ← removeVersions rel rest
    return n + m

/-- Files that were deleted too long ago lose their last copy and their stamp. -/
def dropExpired (found : List (Int × Text)) : List Text → Act Nat
  | [] => pure 0
  | rel :: rest => do
    let n ← removeVersions k rel (timesOf found rel)
    setManifest fun m => m.forget rel
    let m ← dropExpired found rest
    return n + m

/-- Which versions of a file stay: those that are kept by age, and the latest one of a deleted file. -/
def keptTimes (deleted : Bool) (times : List Int) : List Int :=
  match times.reverse with
  | latest :: earlier => if deleted then keepVersions now earlier.reverse ++ [latest] else keepVersions now times
  | [] => []

def thinEach (found : List (Int × Text)) : List Text → Act Nat
  | [] => pure 0
  | rel :: rest => do
    let r ← get
    let times := timesOf found rel
    let keep := keptTimes now (r.manifest.deleted.get? rel).isSome times
    let n ← removeVersions k rel (times.filter fun t => t ∉ keep)
    let m ← thinEach found rest
    return n + m

/-- `prune_empty_dirs`: only folders with something in them stay. -/
def pruneEmptyDirs (t : Tree Text Copy) : Tree Text Copy :=
  t.keep fun p e => e ≠ .dir || t.any fun q e' => e' ≠ .dir && p.isSuffixOf q

def pruneFolder (t : Int) (s : Store) : Store :=
  let left := pruneEmptyDirs (s.version t)
  if left.rows = [] then { s with versions := s.versions.erase t } else { s with versions := s.versions.put t left }

def pruneFolders (times : List Int) (s : Store) : Store := times.foldl (fun s t => pruneFolder t s) s

/-- `thin`: a file that is back under `current/` is no longer deleted; then versions go by age. -/
def thin : Act Nat := do
  let here ← reads fun s => .ok (currentFiles s)
  setManifest fun m => { m with deleted := m.deleted.keep fun rel _ => rel ∉ here }
  let r ← get
  let found ← reads fun s => .ok (allVersions s)
  let clock := r.manifest.clock now
  let expired := (r.manifest.deleted.rows.filter fun row => deletedKeepSecs < clock - row.2).map Prod.fst
  let n ← dropExpired k found expired
  let m ← thinEach k now found ((found.map Prod.snd).dedup.filter fun rel => rel ∉ expired)
  writes (fun s => .ok (pruneFolders (versionTimes s) s)) fun _ => []
  return n + m

/-- One folder of versions; `copies` has each name as often as there are copies of it left. -/
def freeFolder (spared : Text → Int → Bool) (t : Int) : List Text → List Text → Act (Nat × List Text)
  | [], copies => pure (0, copies)
  | rel :: rest, copies =>
    if spared rel t then freeFolder spared t rest copies
    else do
      let place ← relPlace k rel
      match ← reads fun s => .ok ((s.version t).file? place) with
      | none => freeFolder spared t rest copies
      | some copy => do
        let _ ← removeVersion k t rel
        whenever (rel ∉ copies.erase rel) (setManifest fun m => m.forget rel)
        let left ← freeFolder spared t rest (copies.erase rel)
        return (copy.bytes.length + left.1, left.2)

/-- From the oldest folder on, until one has freed something. -/
def freeFolders (spared : Text → Int → Bool) : List Int → List Text → Act Nat
  | [], _ => pure 0
  | t :: rest, copies => do
    let names ← reads fun s => .ok (walkFiles (s.version t))
    let left ← freeFolder k spared t names copies
    writes (fun s => .ok (pruneFolder t s)) fun _ => []
    if 0 < left.1 then return left.1 else freeFolders spared rest left.2

/-- `free_space_by_thinning`. The newest copy of a file that was deleted not long ago is spared. -/
def freeSpaceByThinning : Act Nat := do
  let r ← get
  let clock := r.manifest.clock now
  let times ← reads fun s => .ok (versionTimes s)
  let found ← reads fun s => .ok (allVersions s)
  -- A file that still stands under `current/` is a copy too.
  let here ← reads fun s => .ok (currentFiles s)
  let young := (r.manifest.deleted.rows.filter fun row => clock - row.2 ≤ deletedKeepSecs).map Prod.fst
  let spared := fun rel t => (timesOf found rel).max? = some t && rel ∈ young
  freeFolders k spared times (found.map Prod.snd ++ here)

end LibreServ.DriveBackup
