import LibreServ.DriveStore

/-! One run of a drive backup: `sync_target`, `plan_names` and `retry_with_room` of `drive_backup.rs`. The files of
the source get their names on the target, copies under another spelling move aside, changed files are saved, and at
the end what the source dropped leaves `current/`, after the manifest has said so. -/

namespace LibreServ.DriveBackup

open Files (Text split join)
open FileTree

/-- A walked file, and what it is when its turn comes; nothing if it is gone by then. -/
structure Entry where
  rel : Text
  size : Nat
  source : Option Source

variable (k : Target)

/-! ### Names on the target -/

def tooBig (e : Entry) : Bool := k.maxFile.any fun most => most < e.size

/-- `file_stem` and `extension` of a name: what stands before its last dot, unless that is nothing. -/
def stemAndExtension (name : Text) : Text × Option Text :=
  let ext := (name.reverse.takeWhile (· ≠ '.')).reverse
  let stem := name.take (name.length - ext.length - 1)
  if '.' ∉ name ∨ stem = [] then (name, none) else (stem, some ext)

/-- `dir/stem (n).ext`. -/
def candidate (rel : Text) (n : Nat) : Text :=
  let dir := rel.rdropWhile (· ≠ '/')
  let parts := stemAndExtension (rel.drop dir.length)
  dir ++ parts.1 ++ [' '] ++ '(' :: Nat.toDigits 10 n ++ ')' :: (match parts.2 with
    | some ext => '.' :: ext
    | none => [])

def freeAltName (rel : Text) (taken : List Text) : Text :=
  firstFree (fun name => k.nameKey name ∈ taken) (candidate rel) taken.length 2

structure Plan where
  wanted : List (Text × Entry)
  notes : List Text
  /-- Files that are too big; their existing copies stay. -/
  kept : List Text

/-- The loop of `plan_names`. `taken` has the keys of the names given so far. -/
def planFrom (taken : List Text) : List Entry → Plan
  | [] => ⟨[], [], []⟩
  | e :: rest =>
    if tooBig k e then
      let p := planFrom taken rest
      { p with
        notes := (e.rel ++ " is too big for ".toList ++ k.label ++ "'s format (largest 4 GB).".toList) :: p.notes
        kept := e.rel :: p.kept }
    else if k.nameKey e.rel ∉ taken then
      let p := planFrom (k.nameKey e.rel :: taken) rest
      { p with wanted := (e.rel, e) :: p.wanted }
    else
      let alt := freeAltName k e.rel taken
      let p := planFrom (k.nameKey alt :: taken) rest
      { p with
        wanted := (alt, e) :: p.wanted
        notes := (e.rel ++ " has the same name as another file on ".toList ++ k.label ++
          " apart from capitals, so it was saved as ".toList ++ alt ++ ['.']) :: p.notes }

def planNames (walked : List Entry) : Plan := planFrom k [] (walked.insertionSort fun a b => a.rel ≤ b.rel)

def Plan.keys (p : Plan) : List Text := p.wanted.map (fun w => k.nameKey w.1) ++ p.kept.map k.nameKey

/-- Copies that the source no longer has. -/
def Plan.deletions (p : Plan) (current : List Text) : List Text := current.filter fun rel => k.nameKey rel ∉ p.keys k

/-! ### Making room -/

variable (now : Int)

def roomNote : Text := "Removed older versions to make room on ".toList ++ k.label ++ ['.']

/-- A step that finds the disk full is tried once more if old versions could be removed. -/
def retryWithRoom {α : Type} (x : Act α) : Act α :=
  onError x fun e =>
    match e with
    | .full => do
      let freed ← onError (freeSpaceByThinning k now) fun _ => pure 0
      if freed = 0 then throw .full
      else do
        count fun o => if roomNote k ∈ o.notes then o else { o with notes := o.notes ++ [roomNote k] }
        x
    | e => throw e

def saveManifest : Act Unit := retryWithRoom k now do
  let r ← get
  writes (fun s => .ok { s with manifest := some r.manifest }) fun _ => []

/-! ### The run -/

def massDeleteMin : Nat := 20

def clockGapSecs : Int := 2 * 60 * 60

/-- The manifest for this run: a long stretch in which nobody looked does not count, and the clock runs. -/
def Manifest.started (m : Manifest) : Manifest :=
  let m := if m.pausedSince = 0 ∧ 0 < m.lastOkAt ∧ clockGapSecs < now - m.lastOkAt then
    { m with pausedSecs := m.pausedSecs + (now - m.lastOkAt) } else m
  m.resume now

/-- Other spellings of a name, where capitals are ignored. -/
def otherSpellings (current : List Text) (rel : Text) : List Text :=
  current.filter fun old => old ≠ rel && k.nameKey old = k.nameKey rel

def moveAside : List Text → Act Unit
  | [] => pure ()
  | old :: rest => do
    let _ ← retryWithRoom k now (remove k now old)
    moveAside rest

/-- One file; a source that is gone by now is skipped. -/
def save (rel : Text) (e : Entry) : Act Unit :=
  match e.source with
  | none => pure ()
  | some src =>
    onError
      (do
        let done ← retryWithRoom k now (put k now rel src)
        count fun o =>
          if done = .unchanged then { o with unchanged := o.unchanged + 1 } else { o with copied := o.copied + 1 }
        setManifest fun m => m.forget rel)
      fun stop => if stop = .notFound then pure () else throw stop

def saveAll : List (Text × Entry) → Act Unit
  | [] => pure ()
  | (rel, e) :: rest => do
    save k now rel e
    saveAll rest

def dropAll : List Text → Act Unit
  | [] => pure ()
  | rel :: rest => do
    let gone ← retryWithRoom k now (remove k now rel)
    whenever gone (count fun o => { o with removed := o.removed + 1 })
    dropAll rest

def stampAll (stamp : Int) (deletions : List Text) (m : Manifest) : Manifest :=
  { m with deleted := deletions.foldl (fun t rel => t.put rel stamp) m.deleted, lastOkAt := now }

/-- From the point on where the disk is changed. -/
def syncFiles (p : Plan) (current : List Text) : Act Unit := do
  let m ← reads fun s => .ok (s.manifest.getD Manifest.fresh)
  setManifest fun _ => m.started now
  whenever k.caseInsensitive (moveAside k now (p.wanted.flatMap fun w => otherSpellings k current w.1))
  saveAll k now p.wanted
  count fun o => { o with
    unchanged := o.unchanged + (p.kept.filter fun rel => k.nameKey rel ∈ current.map k.nameKey).length }
  -- Thinning first: it drops the stamps of files that are still under `current/`.
  let _ ← thin k now
  setManifest (stampAll now ((m.started now).clock now) (p.deletions k current))
  saveManifest k now
  dropAll k now (p.deletions k current)
  whenever (p.deletions k current ≠ []) (saveManifest k now)

/-- `sync_target`; the run is not made if it would drop most of the backup. -/
def syncTarget (walked : List Entry) (allowMassDelete : Bool) : Act Bool := do
  let p := planNames k walked
  let current ← reads fun s => .ok (currentFiles s)
  let gone := (p.deletions k current).length
  if ¬ allowMassDelete ∧ massDeleteMin ≤ gone ∧ current.length < gone * 2 then return false
  else do
    count fun o => { o with notes := p.notes }
    syncFiles k now p current
    return true

structure Sync where
  walked : List Entry
  now : Int
  allowMassDelete : Bool
  outcomes : List Outcome

def Sync.start (i : Sync) (log : List Event) (s : Store) : Run := ⟨s, Manifest.fresh, ⟨[], 0, 0, 0⟩, i.outcomes, log⟩

def Sync.result (i : Sync) (log : List Event) (s : Store) : EStateM.Result Stop Run Bool :=
  syncTarget k i.now i.walked i.allowMassDelete (i.start log s)

def stateOf {α : Type} : EStateM.Result Stop Run α → Run
  | .ok _ r => r
  | .error _ r => r

/-- What a run leaves, however it ends. -/
def Sync.leaves (i : Sync) (log : List Event) (s : Store) : Run := stateOf (i.result k log s)

/-- Runs one after the other: the disk, and what has happened to copies. -/
def runAll : List Sync → List Event → Store → List Event × Store
  | [], log, s => (log, s)
  | i :: rest, log, s => runAll rest (i.leaves k log s).log (i.leaves k log s).store

end LibreServ.DriveBackup
