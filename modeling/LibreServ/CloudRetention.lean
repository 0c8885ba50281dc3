import LibreServ.CloudRewrap

/-! Retention (`backup/cloud/retention.rs`): which snapshots stay, and how packs that no snapshot uses are
marked, waited on, and deleted from the cloud. -/

namespace LibreServ.Cloud

open Sections

def daySecs : ℤ := 86400
def graceSecs : ℤ := 86400

/-- The bucket a snapshot of this age falls into: a day, a week, a month. -/
def versionBucket (age : ℤ) : Option ℕ :=
  if age ≤ daySecs then some 0
  else if age ≤ 7 * daySecs then some 1
  else if age ≤ 31 * daySecs then some 2
  else none

/-- The oldest time of each bucket. -/
def keepVersions (times : List ℤ) (now : ℤ) : List ℤ :=
  [0, 1, 2].filterMap fun bucket =>
    (times.filter fun t => versionBucket (now - t) = some bucket).min?

structure Thinned where
  snapshotsRemoved : ℕ
  packsMarked : ℕ
  packsDeleted : ℕ
  bytesFreed : ℕ
  deriving DecidableEq

/-- The snapshots a pass removes: all but the newest and the first at each kept time. -/
def expired (keep : List ℤ) : List (Id × Snapshot) → List ℤ → Bool → List Id
  | [], _, _ => []
  | (id, s) :: rest, seen, first =>
    let stays := first ∨ (s.createdAt ∉ seen ∧ s.createdAt ∈ keep)
    let others := expired keep rest (s.createdAt :: seen) false
    if stays then others else id :: others

/-- Where a snapshot's record lives. -/
def snapshotRecordRef (db : Db) (id : Id) : RecordName :=
  match db.privateTrees.get? id with
  | some scope => .psnapshot scope id
  | none => .snapshot id

/-- The record goes first: if that fails, the row stays and the next pass tries again. -/
def removeSnapshots : List Id → Job ℕ
  | [] => return 0
  | id :: rest => do
    let name ← read (.recordRef id) fun db => snapshotRecordRef db id
    match ← deleteRecord name with
    | .ok () | .error .notFound =>
      write (.deleteSnapshot id) fun db => db.deleteCloudSnapshot id
      let removed ← removeSnapshots rest
      return removed + 1
    | .error e => .fail (.error e.text)

/-- A pack this pass may delete. If it was this pass that moved it to `deleting`, the pass must move it
back when the delete fails. -/
structure Claim where
  size : ℕ
  fresh : Bool
  deriving DecidableEq

/-- Move a pack to `deleting`, only if it is still safe to delete. -/
def claimPack (db : Db) (id : Bytes32) (scope : Bytes) (now : ℤ) : Option Claim × Db :=
  match db.packs.get? id with
  | none => (none, db)
  | some row =>
    match row.state with
    | .deleting => (some ⟨row.size, false⟩, db)
    | .marked =>
      if row.scope = scope ∧ graceSecs ≤ now - row.markedAt ∧ db.runBefore scope row.markedAt = false then
        (some ⟨row.size, true⟩, db.updatePack id fun row => { row with state := .deleting })
      else (none, db)
    | _ => (none, db)

/-- Undo a claim after the delete failed. -/
def releasePack (db : Db) (id : Bytes32) : Db :=
  db.updatePack id fun row => if row.state = .deleting then { row with state := .marked } else row

def deleteClaimed (scope : Bytes) (now : ℤ) : List Bytes32 → Job (ℕ × ℕ)
  | [] => return (0, 0)
  | id :: rest => do
    let claim ← Prog.act (.claim id scope now) fun _ s =>
      let (claim, db) := claimPack s.db id scope now
      (claim, { s with db := db })
    match claim with
    | none => deleteClaimed scope now rest
    | some claim =>
      match ← deletePack id with
      | .ok () | .error .notFound =>
        write (.deleteRow id) fun db => db.deletePackRow id
        let (deleted, freed) ← deleteClaimed scope now rest
        return (deleted + 1, freed + claim.size)
      | .error e =>
        if claim.fresh then
          write (.release id) fun db => releasePack db id
          .fail (.error e.text)
        else .fail (.error e.text)

/-- Drop the snapshots that retention no longer keeps, then mark and delete packs nothing uses. Nothing is
deleted while a rewritten record is still to be sent. -/
def thin (protection : String) (scope : Bytes) (now : ℤ) : Job Thinned := do
  let snapshots ← read (.listSnapshots protection) fun db => db.listCloudSnapshots protection
  let keep := keepVersions (snapshots.map fun s => s.2.createdAt) now
  let removed ← removeSnapshots (expired keep snapshots [] true)
  let marked ← Prog.act (.markUnusedPacks scope) fun _ s =>
    ((s.db.unusedPacks scope).length, { s with db := s.db.markUnusedPacks scope now })
  if ← read .uploadPending recordUploadPending then
    return ⟨removed, marked, 0, 0⟩
  else
    let ids ← read (.listDeletable scope) fun db =>
      db.deletablePacks scope now ++ db.listPacks scope .deleting
    let (deleted, freed) ← deleteClaimed scope now ids
    return ⟨removed, marked, deleted, freed⟩

end LibreServ.Cloud
