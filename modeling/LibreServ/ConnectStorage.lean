import LibreServ.Paths
import LibreServ.Table

/-! Cloud storage of one account at Connect, from `handlers/storage.go`, `handlers/device.go` and
`accounts/storage_purge.go`. Rows say what is stored, a store holds the objects, and reminders say what may go. A
call's transactions and its calls to the store are steps of their own; between them other calls take theirs, as far as
the account lock lets them. -/

namespace LibreServ.Connect

open Files (Text)

def maxStoragePackBytes : Nat := 64 * 2 ^ 20

def maxStorageRecordBytes : Nat := 2 ^ 20

def maxLunasPerAccount : Nat := 25

def deleteGraceSeconds : Int := 7 * 24 * 3600

def backupRetentionDays : Int := 30

def pendingDeleteBatch : Nat := 500

inductive Backend where
  | server
  | b2
  deriving DecidableEq

/-- Where an object is kept: `packs/<id>` or `records/<kind>/<name>`. -/
inductive BlobPath where
  | pack (id : Text)
  | record (kind name : Text)
  deriving DecidableEq

/-- A row of `luna_ids`; `purgeAfter` is 0 where no purge is due, and -1 where one was begun. -/
structure LunaRow where
  device : Text
  purgeAfter : Int
  deriving DecidableEq

/-- A row of `storage_packs` or `storage_records`. -/
structure BlobRow where
  size : Nat
  backend : Backend
  deriving DecidableEq

/-- A row of `storage_pending_deletes`. -/
structure Pending where
  backend : Backend
  deleteAfter : Int
  deriving DecidableEq

/-- The account's rows. Those of packs and of records stand in one table, under the path of their object. -/
structure Db where
  lunas : Table Text LunaRow
  stored : Table (Text × BlobPath) BlobRow
  pending : Table (Text × BlobPath) Pending

/-! ### Whose Luna it is -/

/-- What a call will do to `luna_ids` when it commits. -/
inductive Link where
  | nothing
  | claim (device : Text)
  | keep
  | move (device : Text)
  deriving DecidableEq

namespace Db

variable (db : Db)

/-- `authorizeLuna`; `sigOk` says whether the call has a signature of the Luna's key, `write` whether it is a `PUT`. -/
def authorizeLuna (device luna : Text) (sigOk write : Bool) : Option Link :=
  match db.lunas.get? luna with
  | none =>
    if write then if db.lunas.rows.length < maxLunasPerAccount then some (.claim device) else none
    else some .nothing
  | some row =>
    if row.device = device then some .keep else if sigOk then some (.move device) else none

/-- `keepLunaWith`. -/
def kept (row : LunaRow) : LunaRow :=
  if 0 < row.purgeAfter ∨ row.purgeAfter = -1 then { row with purgeAfter := 0 } else row

def applyLink (luna : Text) : Link → Db
  | .nothing => db
  | .claim device =>
    if db.lunas.get? luna = none then { db with lunas := db.lunas.put luna ⟨device, 0⟩ } else db
  | .keep => { db with lunas := db.lunas.update fun l row => if l = luna then kept row else row }
  | .move device =>
    { db with lunas := db.lunas.update fun l row => if l = luna then kept { row with device := device } else row }

/-- `unbindDevice`: thirty days from now the device's Lunas are purged. -/
def unbindDevice (now : Int) (device : Text) : Db :=
  { db with
    lunas := db.lunas.update fun _ row =>
      if row.device = device ∧ row.purgeAfter = 0 then { row with purgeAfter := now + backupRetentionDays * 86400 }
      else row }

def storageUsed : Int := ((db.stored.rows.map fun r => r.2.size).sum : Nat)

/-- `removeStored`: a reminder that is there already stays as it is. -/
def removeStored (now : Int) (backend : Backend) (luna : Text) (path : BlobPath) : Db :=
  if db.pending.get? (luna, path) = none then
    { db with pending := db.pending.put (luna, path) ⟨backend, now + deleteGraceSeconds⟩ }
  else db

def forget (luna : Text) (path : BlobPath) : Db := { db with pending := db.pending.erase (luna, path) }

/-- `recordPack`, or the upsert of a record. -/
def recordBlob (luna : Text) (path : BlobPath) (size : Nat) (backend : Backend) : Db :=
  let row := match path, db.stored.get? (luna, path) with
    | .pack _, some old => { old with backend := backend }
    | _, _ => ⟨size, backend⟩
  { db with stored := db.stored.put (luna, path) row }

end Db

/-! ### Calls under way -/

/-- An upload between its first step and its commit. -/
structure PutCall (B : Type) where
  luna : Text
  path : BlobPath
  body : B
  link : Link

structure Item where
  luna : Text
  path : BlobPath
  backend : Backend
  deriving DecidableEq

/-- Calls that are not over. -/
inductive Op (B : Type) where
  /-- An upload whose transaction is open; the backend once the object is there. -/
  | put (call : PutCall B) (backend : Option Backend)
  /-- An upload that committed, before `cancelRemoval`. -/
  | putDone (luna : Text) (path : BlobPath)
  /-- `ProcessPendingDeletes`: what it found due, and the item it has in hand with whether its object is gone. -/
  | pass (due : List Item) (current : Option (Item × Bool))
  /-- `purgeStorage` of a Luna or of all: the objects still to go, and whether one has gone. -/
  | purge (luna : Option Text) (blobs : List Item) (started : Bool)

inductive Lock where
  | none
  | shared
  | exclusive
  deriving DecidableEq

def Op.lock {B : Type} : Op B → Lock
  | .put _ _ => .shared
  | .putDone _ _ => .none
  | .pass _ current => if current.isSome then .exclusive else .none
  | .purge _ _ _ => .exclusive

/-- An object that `ProcessPendingDeletes` removed, with the time its row was deleted last. -/
structure Removal where
  luna : Text
  path : BlobPath
  time : Int
  deletedAt : Option Int
  deriving DecidableEq

structure State (B : Type) where
  db : Db
  objects : Table (Backend × Text × BlobPath) B
  ops : Table Nat (Op B)
  nextOp : Nat
  clock : Int
  /-- When the row of a path was deleted last, for the record. -/
  deletedAt : Table (Text × BlobPath) Int
  /-- For the record. -/
  removals : List Removal

/-- What a step reads besides. -/
structure Env where
  now : Int
  preferredBackend : Backend
  backupUnlocked : Bool
  accountBackupCap : Int

inductive Action (B : Type) where
  | put (device luna : Text) (path : BlobPath) (body : B) (sigOk : Bool)
  | storePut (op : Nat) (goes : Bool)
  | commitPut (op : Nat)
  | cancelRemoval (op : Nat)
  | delete (device luna : Text) (path : BlobPath) (sigOk : Bool)
  | relink (device luna : Text) (sigOk : Bool)
  | unbindDevice (device : Text)
  | passBegin
  | passLock (op : Nat)
  | passRemove (op : Nat) (goes : Bool)
  | passForget (op : Nat)
  | purgeBegin (luna : Option Text)
  | purgeRemove (op : Nat) (goes : Bool)
  | purgeCommit (op : Nat)
  | crash

variable {B : Type}

namespace State

variable (s : State B)

def empty : State B := ⟨⟨Table.empty, Table.empty, Table.empty⟩, Table.empty, Table.empty, 0, 0, Table.empty, []⟩

/-- Somebody removes objects and their rows. -/
def excluded : Bool := s.ops.any fun _ op => op.lock = .exclusive

/-- Somebody holds the account lock. -/
def locked : Bool := s.ops.any fun _ op => op.lock ≠ .none

def addOp (op : Op B) : State B := { s with ops := s.ops.put s.nextOp op, nextOp := s.nextOp + 1 }

def setOp (o : Nat) (op : Op B) : State B := { s with ops := s.ops.put o op }

def endOp (o : Nat) : State B := { s with ops := s.ops.erase o }

def setDb (db : Db) : State B := { s with db := db }

/-- The checks of `PutPack` and `PutRecord` on what is sent. -/
def accepts (hash : B → Text) (len : B → Nat) (env : Env) (luna : Text) (path : BlobPath) (body : B) : Bool :=
  match path with
  | .pack id =>
    let remain := env.accountBackupCap - s.db.storageUsed
    0 < remain && len body ≤ maxStoragePackBytes && (len body : Int) ≤ remain && hash body = id
  | .record _ _ =>
    let old := ((s.db.stored.get? (luna, path)).map BlobRow.size).getD 0
    len body ≤ maxStorageRecordBytes && s.db.storageUsed - old + len body ≤ env.accountBackupCap

def beginPut (hash : B → Text) (len : B → Nat) (env : Env) (device luna : Text) (path : BlobPath) (body : B)
    (sigOk : Bool) : State B :=
  if s.excluded then s
  else
    match s.db.authorizeLuna device luna sigOk true with
    | none => s
    | some link =>
      if ¬ env.backupUnlocked then s
      else
        match path, s.db.stored.get? (luna, path) with
        | .pack _, some _ => s.setDb (s.db.applyLink luna link)
        | _, _ => if s.accepts hash len env luna path body then s.addOp (.put ⟨luna, path, body, link⟩ none) else s

/-- `Auto.Put`: into the backend that is preferred now; a copy in the other one, where the row says it was, goes. -/
def putObject (env : Env) (luna : Text) (path : BlobPath) (body : B) : Table (Backend × Text × BlobPath) B :=
  let objects := s.objects.put (env.preferredBackend, luna, path) body
  match s.db.stored.get? (luna, path) with
  | some row => if row.backend ≠ env.preferredBackend then objects.erase (row.backend, luna, path) else objects
  | none => objects

def storePut (env : Env) (o : Nat) (goes : Bool) : State B :=
  match s.ops.get? o with
  | some (.put call none) =>
    if goes then
      { s with objects := s.putObject env call.luna call.path call.body }.setOp o
        (.put call (some env.preferredBackend))
    else
      match call.path with
      | .pack _ => s.endOp o
      | .record _ _ => (s.setDb (s.db.applyLink call.luna call.link)).endOp o
  | _ => s

def commitPut (len : B → Nat) (o : Nat) : State B :=
  match s.ops.get? o with
  | some (.put call (some backend)) =>
    let db := (s.db.applyLink call.luna call.link).recordBlob call.luna call.path (len call.body) backend
    (s.setDb db).setOp o (.putDone call.luna call.path)
  | _ => s

def cancelRemoval (o : Nat) : State B :=
  match s.ops.get? o with
  | some (.putDone luna path) => (s.setDb (s.db.forget luna path)).endOp o
  | _ => s

/-- `DeletePack` and `DeleteRecord`. -/
def delete (env : Env) (device luna : Text) (path : BlobPath) (sigOk : Bool) : State B :=
  if s.excluded then s
  else
    match s.db.authorizeLuna device luna sigOk false with
    | none => s
    | some link =>
      let db := s.db.applyLink luna link
      match db.stored.get? (luna, path) with
      | none => s.setDb db
      | some row =>
        let db := { db with stored := db.stored.erase (luna, path) }.removeStored env.now row.backend luna path
        { s.setDb db with deletedAt := s.deletedAt.put (luna, path) env.now }

/-- A call that only reads, of a device that is linked again. -/
def relink (device luna : Text) (sigOk : Bool) : State B :=
  if s.excluded then s
  else
    match s.db.authorizeLuna device luna sigOk false with
    | none => s
    | some link => s.setDb (s.db.applyLink luna link)

/-! ### Objects whose grace is over -/

def due (now : Int) : List Item :=
  let rows := (s.db.pending.select fun _ p => p.deleteAfter ≤ now).mergeSort fun a b => a.2.deleteAfter ≤ b.2.deleteAfter
  (rows.take pendingDeleteBatch).map fun r => ⟨r.1.1, r.1.2, r.2.backend⟩

def passBegin (env : Env) : State B := s.addOp (.pass (s.due env.now) none)

/-- The next item is taken up under the lock, if its path has no row. -/
def passLock (o : Nat) : State B :=
  match s.ops.get? o with
  | some (.pass [] none) => s.endOp o
  | some (.pass (item :: rest) none) =>
    if s.locked then s
    else if (s.db.stored.get? (item.luna, item.path)).isSome then
      (s.setDb (s.db.forget item.luna item.path)).setOp o (.pass rest none)
    else s.setOp o (.pass rest (some (item, false)))
  | _ => s

def passRemove (env : Env) (o : Nat) (goes : Bool) : State B :=
  match s.ops.get? o with
  | some (.pass rest (some (item, false))) =>
    if goes then
      let removal : Removal := ⟨item.luna, item.path, env.now, s.deletedAt.get? (item.luna, item.path)⟩
      { s with
        objects := s.objects.erase (item.backend, item.luna, item.path)
        removals := s.removals ++ [removal] }.setOp o (.pass rest (some (item, true)))
    else s.setOp o (.pass rest none)
  | _ => s

def passForget (o : Nat) : State B :=
  match s.ops.get? o with
  | some (.pass rest (some (item, true))) => (s.setDb (s.db.forget item.luna item.path)).setOp o (.pass rest none)
  | _ => s

/-! ### Purging -/

/-- The purge is of this Luna. -/
def covers (purged : Option Text) (luna : Text) : Bool := purged = none || purged = some luna

/-- Everything of the Lunas that are purged: packs, what waits out its grace, records. -/
def blobs (purged : Option Text) : List Item :=
  let stored := s.db.stored.select fun k _ => covers purged k.1
  let item := fun r : (Text × BlobPath) × BlobRow => (⟨r.1.1, r.1.2, r.2.backend⟩ : Item)
  let isPack := fun r : (Text × BlobPath) × BlobRow => match r.1.2 with
    | .pack _ => true
    | .record _ _ => false
  (stored.filter isPack).map item ++
    ((s.db.pending.select fun k _ => covers purged k.1).map fun r => (⟨r.1.1, r.1.2, r.2.backend⟩ : Item)) ++
    (stored.filter fun r => !isPack r).map item

/-- `claimLunaForPurgeExec`: only a Luna that is due, or one whose purge was begun before. -/
def claims (now : Int) (luna : Text) : Bool :=
  match s.db.lunas.get? luna with
  | none => true
  | some row => row.purgeAfter = -1 || (0 < row.purgeAfter && row.purgeAfter ≤ now)

def purgeBegin (env : Env) (purged : Option Text) : State B :=
  if s.locked then s
  else if purged.all (s.claims env.now) then s.addOp (.purge purged (s.blobs purged) false)
  else s

def purgeRemove (o : Nat) (goes : Bool) : State B :=
  match s.ops.get? o with
  | some (.purge purged (item :: rest) _) =>
    if goes then
      { s with objects := s.objects.erase (item.backend, item.luna, item.path) }.setOp o (.purge purged rest true)
    else s.endOp o
  | _ => s

def purgeCommit (o : Nat) : State B :=
  match s.ops.get? o with
  | some (.purge purged [] _) =>
    let db : Db := {
      lunas := s.db.lunas.keep fun l _ => !covers purged l
      stored := s.db.stored.keep fun k _ => !covers purged k.1
      pending := s.db.pending.keep fun k _ => !covers purged k.1 }
    (s.setDb db).endOp o
  | _ => s

/-- What was not committed is lost; the objects are as they are. -/
def crash : State B := { s with ops := Table.empty }

def act (hash : B → Text) (len : B → Nat) (env : Env) : Action B → State B
  | .put device luna path body sigOk => s.beginPut hash len env device luna path body sigOk
  | .storePut o goes => s.storePut env o goes
  | .commitPut o => s.commitPut len o
  | .cancelRemoval o => s.cancelRemoval o
  | .delete device luna path sigOk => s.delete env device luna path sigOk
  | .relink device luna sigOk => s.relink device luna sigOk
  | .unbindDevice device => s.setDb (s.db.unbindDevice env.now device)
  | .passBegin => s.passBegin env
  | .passLock o => s.passLock o
  | .passRemove o goes => s.passRemove env o goes
  | .passForget o => s.passForget o
  | .purgeBegin luna => s.purgeBegin env luna
  | .purgeRemove o goes => s.purgeRemove o goes
  | .purgeCommit o => s.purgeCommit o
  | .crash => s.crash

def step (hash : B → Text) (len : B → Nat) (env : Env) (a : Action B) : State B :=
  { s.act hash len env a with clock := env.now }

def run (hash : B → Text) (len : B → Nat) : List (Env × Action B) → State B → State B
  | [], s => s
  | (env, a) :: rest, s => run hash len rest (s.step hash len env a)

end State

end LibreServ.Connect
