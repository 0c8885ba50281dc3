import LibreServ.CloudState

/-! The functions of `db.rs` on the cloud tables, on the tables they read and write. -/

namespace LibreServ.Cloud

open List Table

def hexDigit (n : ℕ) : Char := if n < 10 then Char.ofNat (48 + n) else Char.ofNat (87 + n)

def hex (bytes : Bytes) : String :=
  String.ofList (bytes.flatMap fun b => [hexDigit (b.toNat / 16), hexDigit (b.toNat % 16)])

/-- Ids in the order of their hex text. -/
def sortIds (ids : List Bytes32) : List Bytes32 := ids.insertionSort fun a b => ofBe a.val ≤ ofBe b.val

namespace Db

/-! ### Keys -/

/-- Oldest version first. -/
def listBackupKeys (db : Db) (protection : String) : List BackupKey :=
  ((db.backupKeys.select fun k _ => k.1 = protection).map Prod.snd).insertionSort
    fun a b => a.version ≤ b.version

def latestBackupKey (db : Db) (protection : String) : Option BackupKey :=
  (db.listBackupKeys protection).getLast?

def insertBackupKey (db : Db) (protection : String) (key : BackupKey) : Except String Db :=
  match db.backupKeys.get? (protection, key.version) with
  | some _ => .error "UNIQUE constraint failed: backup_keys.protection_id, backup_keys.version"
  | none => .ok { db with backupKeys := db.backupKeys.put (protection, key.version) key }

/-! ### Packs and chunks -/

/-- Start a pack upload. It stays pending until a commit. -/
def insertPendingPack (db : Db) (id : Bytes32) (scope : Bytes) (runId : Id) (now : ℤ) :
    Except String Db :=
  match db.packs.get? id with
  | some _ => .error "UNIQUE constraint failed: cloud_packs.id"
  | none => .ok { db with packs := db.packs.put id ⟨scope, .pending, runId, 0, 0, now⟩ }

def updatePack (db : Db) (id : Bytes32) (f : PackRow → PackRow) : Db :=
  { db with packs := db.packs.update fun id' row => if id' = id then f row else row }

def recordPackSize (db : Db) (id : Bytes32) (size : ℕ) : Db :=
  db.updatePack id fun row => { row with size := size }

def setPackLive (db : Db) (id : Bytes32) (size : ℕ) : Db :=
  db.updatePack id fun row => { row with state := .live, size := size }

/-- Ids of packs in one scope with the given state. -/
def listPacks (db : Db) (scope : Bytes) (state : PackState) : List Bytes32 :=
  sortIds ((db.packs.select fun _ row => row.scope = scope ∧ row.state = state).map Prod.fst)

/-- Remove a pack and its chunk index entries. -/
def deletePackRow (db : Db) (id : Bytes32) : Db :=
  { db with
    chunks := db.chunks.keep fun _ place => place.pack ≠ id
    packs := db.packs.erase id }

/-- Where a chunk is stored. Chunks in marked or deleting packs do not count. -/
def findChunk (db : Db) (scope : Bytes) (id : Bytes32) : Option ChunkPlace :=
  match db.chunks.get? (scope, id) with
  | none => none
  | some place =>
    match db.packs.get? place.pack with
    | none => none
    | some row => if row.state = .marked ∨ row.state = .deleting then none else some place

def insertChunk (db : Db) (scope : Bytes) (id : Bytes32) (place : ChunkPlace) : Db :=
  { db with chunks := db.chunks.put (scope, id) place }

def insertChunks (db : Db) (scope : Bytes) (pack : Bytes32) (entries : List IndexEntry) : Db :=
  entries.foldl (fun db e => db.insertChunk scope e.id ⟨pack, e.offset, e.len⟩) db

/-! ### Snapshots and runs -/

/-- Snapshots of one protection, newest first. -/
def listCloudSnapshots (db : Db) (protection : String) : List (Id × Snapshot) :=
  (db.snapshots.select fun _ s => s.protectionId = protection).insertionSort
    fun a b => b.2.createdAt ≤ a.2.createdAt

def insertCloudSnapshot (db : Db) (id : Id) (s : Snapshot) : Except String Db :=
  match db.snapshots.get? id with
  | some _ => .error "UNIQUE constraint failed: cloud_snapshots.id"
  | none => .ok { db with snapshots := db.snapshots.put id s }

/-- Delete a snapshot and its pack links. -/
def deleteCloudSnapshot (db : Db) (id : Id) : Db :=
  { db with
    links := db.links.filter fun l => l.1 ≠ id
    snapshots := db.snapshots.erase id
    privateTrees := db.privateTrees.erase id }

def startRun (db : Db) (id : Id) (protection : String) (scope : Bytes) (now : ℤ) : Except String Db :=
  match db.runs.get? id with
  | some _ => .error "UNIQUE constraint failed: cloud_runs.id"
  | none => .ok { db with runs := db.runs.put id ⟨protection, scope, now, 0⟩ }

def endRun (db : Db) (id : Id) (now : ℤ) : Db :=
  { db with runs := db.runs.update fun id' row => if id' = id then { row with endedAt := now } else row }

/-- Link the packs of a snapshot, which makes them live. A pack that is gone, or being removed, refuses
the whole transaction. -/
def linkPacks (id : Id) : List Bytes32 → Db → Except String Db
  | [], db => .ok db
  | pack :: packs, db =>
    match (db.packs.get? pack).map PackRow.state with
    | none => .error s!"Backup pack {hex pack.val} is missing from the database."
    | some .deleting =>
      .error s!"Backup pack {hex pack.val} is being removed, so this backup cannot use it."
    | some _ => linkPacks id packs { db.updatePack pack fun row =>
        { row with state := .live, markedAt := 0 } with links := insert (id, pack) db.links }

/-- Save a snapshot and link the packs it uses. -/
def commitSnapshotTx (db : Db) (id : Id) (s : Snapshot) (packs : List Bytes32) : Except String Db := do
  let db ← db.insertCloudSnapshot id s
  linkPacks id packs db

/-! ### Cleanup -/

/-- Some snapshot links the pack. -/
def linked (db : Db) (pack : Bytes32) : Bool := pack ∈ db.links.image Prod.snd

/-- Live packs in one scope that no snapshot uses. -/
def unusedPacks (db : Db) (scope : Bytes) : List Bytes32 :=
  sortIds ((db.packs.select fun id row =>
    row.scope = scope ∧ row.state = .live ∧ db.linked id = false).map Prod.fst)

/-- Mark them, which starts the wait before they are deleted. -/
def markUnusedPacks (db : Db) (scope : Bytes) (now : ℤ) : Db :=
  { db with
    packs := db.packs.update fun id row =>
      if row.scope = scope ∧ row.state = .live ∧ db.linked id = false then
        { row with state := .marked, markedAt := now }
      else row }

/-- A pack that a run ended at `now` uploaded and never committed. -/
def abandoned (db : Db) (now : ℤ) (id : Bytes32) (row : PackRow) : Bool :=
  row.state = .pending ∧ db.runs.any (fun run r => run = row.runId ∧ r.endedAt = now) ∧
    db.linked id = false

/-- After a crash no run can still be going: the open runs are ended, and the packs they left are marked
and forgotten by the index. -/
def recoverInterruptedRuns (now : ℤ) (db : Db) : Db :=
  let db := { db with runs := db.runs.update fun _ row =>
    if row.endedAt = 0 then { row with endedAt := now } else row }
  { db with
    chunks := db.chunks.keep fun _ place =>
      !(match db.packs.get? place.pack with
        | some row => db.abandoned now place.pack row
        | none => false)
    packs := db.packs.update fun id row =>
      if db.abandoned now id row then { row with state := .marked, markedAt := now } else row }

/-- An unfinished run of the scope started before the pack was marked. -/
def runBefore (db : Db) (scope : Bytes) (markedAt : ℤ) : Bool :=
  db.runs.any fun _ r => r.scope = scope ∧ r.startedAt ≤ markedAt ∧ r.endedAt = 0

/-- Marked packs in one scope whose day is over and that no earlier run can still use. -/
def deletablePacks (db : Db) (scope : Bytes) (now : ℤ) : List Bytes32 :=
  sortIds ((db.packs.select fun _ row => row.scope = scope ∧ row.state = .marked ∧
    86400 ≤ now - row.markedAt ∧ db.runBefore scope row.markedAt = false).map Prod.fst)

/-! ### What the functions do to the tables -/

variable {db db' : Db}

@[simp] theorem mem_sortIds {id : Bytes32} {ids : List Bytes32} : id ∈ sortIds ids ↔ id ∈ ids :=
  mem_insertionSort _

theorem updatePack_packs (db : Db) (id : Bytes32) (f : PackRow → PackRow) (p : Bytes32) :
    (db.updatePack id f).packs.get? p = (db.packs.get? p).map fun row => if p = id then f row else row :=
  get?_update ..

theorem linked_iff {pack : Bytes32} : db.linked pack = true ↔ ∃ id, (id, pack) ∈ db.links := by
  simp [linked]

theorem insertPendingPack_ok {id : Bytes32} {scope : Bytes} {runId : Id} {now : ℤ}
    (h : db.insertPendingPack id scope runId now = .ok db') :
    db.packs.get? id = none ∧
      db' = { db with packs := db.packs.put id ⟨scope, .pending, runId, 0, 0, now⟩ } := by
  unfold insertPendingPack at h
  split at h
  · cases h
  · rename_i hnone
    exact ⟨hnone, (Except.ok.inj h).symm⟩

/-- The row of a pack that is about to be uploaded, with its size. -/
theorem insertSizedPack_ok {id : Bytes32} {scope : Bytes} {runId : Id} {now : ℤ} {size : ℕ}
    (h : (do
      let db ← db.insertPendingPack id scope runId now
      return db.recordPackSize id size) = Except.ok db') :
    db.packs.get? id = none ∧ db' = { db with packs := db'.packs } ∧ ∀ p, db'.packs.get? p =
        if p = id then some ⟨scope, .pending, runId, size, 0, now⟩ else db.packs.get? p := by
  cases hins : db.insertPendingPack id scope runId now with
  | error e => simp [hins, bind, Except.bind] at h
  | ok db1 =>
    obtain ⟨hnone, rfl⟩ := insertPendingPack_ok hins
    rw [hins] at h
    obtain rfl := Except.ok.inj h
    refine ⟨hnone, rfl, fun p => ?_⟩
    rw [recordPackSize, updatePack_packs, get?_put]
    by_cases hp : p = id
    · simp [hp]
    · simp [hp]

/-- Only the index changes. -/
theorem insertChunks_eq (db : Db) (scope : Bytes) (pack : Bytes32) (entries : List IndexEntry) :
    db.insertChunks scope pack entries =
      { db with chunks := (db.insertChunks scope pack entries).chunks } := by
  unfold insertChunks
  induction entries generalizing db with
  | nil => rfl
  | cons e entries ih =>
    rw [foldl_cons, ih]
    rfl

/-- A row of the index is an old one or one of the new entries. -/
theorem insertChunks_get? (db : Db) (scope : Bytes) (pack : Bytes32) (entries : List IndexEntry)
    (k : Bytes × Bytes32) :
    ((db.insertChunks scope pack entries).chunks.get? k = db.chunks.get? k ∧
        (k.1 = scope → k.2 ∉ entries.map IndexEntry.id)) ∨
      ∃ e ∈ entries, k = (scope, e.id) ∧
        (db.insertChunks scope pack entries).chunks.get? k = some ⟨pack, e.offset, e.len⟩ := by
  unfold insertChunks
  induction entries generalizing db with
  | nil => exact .inl ⟨rfl, fun _ => not_mem_nil⟩
  | cons e entries ih =>
    rw [foldl_cons]
    rcases ih (db.insertChunk scope e.id ⟨pack, e.offset, e.len⟩) with ⟨hsame, hnot⟩ | ⟨e', he', hk, hget⟩
    · rw [hsame, insertChunk, get?_put]
      by_cases hk : k = (scope, e.id)
      · rw [if_pos hk]
        exact .inr ⟨e, mem_cons_self, hk, rfl⟩
      · rw [if_neg hk]
        refine .inl ⟨rfl, fun hscope hmem => ?_⟩
        rcases mem_cons.mp hmem with hid | hmem
        · exact hk (Prod.ext hscope hid)
        · exact hnot hscope hmem
    · exact .inr ⟨e', mem_cons_of_mem e he', hk, hget⟩

/-- What a successful link does: the packs were there and not being removed, they are linked and live. -/
theorem linkPacks_ok {id : Id} {packs : List Bytes32} (h : linkPacks id packs db = .ok db') :
    db' = { db with packs := db'.packs, links := db'.links } ∧
      (∀ p, db'.packs.get? p = (db.packs.get? p).map fun row =>
        if p ∈ packs then { row with state := .live, markedAt := 0 } else row) ∧
      (∀ l, l ∈ db'.links ↔ l ∈ db.links ∨ (l.1 = id ∧ l.2 ∈ packs)) ∧
      ∀ p ∈ packs, ∃ row, db.packs.get? p = some row ∧ row.state ≠ .deleting := by
  induction packs generalizing db with
  | nil =>
    obtain rfl : db = db' := Except.ok.inj h
    refine ⟨rfl, fun p => ?_, fun l => ?_, fun p hp => absurd hp not_mem_nil⟩
    · cases db.packs.get? p <;> simp
    · simp
  | cons pack packs ih =>
    unfold linkPacks at h
    cases hrow : db.packs.get? pack with
    | none => simp [hrow] at h
    | some row =>
      have hstate : row.state ≠ .deleting := by
        intro hdeleting
        simp [hrow, hdeleting] at h
      have h' : linkPacks id packs { db.updatePack pack fun row =>
          { row with state := .live, markedAt := 0 } with links := insert (id, pack) db.links } =
          .ok db' := by
        rw [hrow] at h
        cases hs : row.state with
        | deleting => exact absurd hs hstate
        | pending | live | marked => simpa [hs] using h
      obtain ⟨heq, hpacks, hlinks, hthere⟩ := ih h'
      refine ⟨heq, fun p => ?_, fun l => ?_, fun p hp => ?_⟩
      · rw [hpacks p, updatePack_packs, Option.map_map]
        congr 1
        funext row
        by_cases hp : p = pack <;> by_cases hmem : p ∈ packs <;> simp [hp]
      · rw [hlinks l, Finset.mem_insert, mem_cons, Prod.ext_iff]
        tauto
      · by_cases hpack : p = pack
        · exact ⟨row, hpack ▸ hrow, hstate⟩
        · obtain ⟨row', hrow', hstate'⟩ := hthere p ((mem_cons.mp hp).resolve_left hpack)
          rw [updatePack_packs] at hrow'
          simp only [hpack, if_false, Option.map_id'] at hrow'
          exact ⟨row', hrow', hstate'⟩

theorem markUnusedPacks_get? (db : Db) (scope : Bytes) (now : ℤ) (p : Bytes32) :
    (db.markUnusedPacks scope now).packs.get? p = (db.packs.get? p).map fun row =>
      if row.scope = scope ∧ row.state = .live ∧ db.linked p = false then
        { row with state := .marked, markedAt := now } else row :=
  get?_update ..

end Db

end LibreServ.Cloud
