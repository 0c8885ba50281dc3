import LibreServ.CloudRun

/-! Moving a backup to its newest key version (`backup/cloud/rewrap.rs`), one step at a time: an older
pack that a snapshot still uses is sealed again under the newest key and the index is pointed at it; a
snapshot whose packs have all moved is rewritten. The local commit of a rewrite comes before the upload
of its record and leaves a marker, from which a later step sends the record. -/

namespace LibreServ.Cloud

open Sections List Table Except

variable (c : Crypto) (j : Json)

/-- What one call did. -/
inductive Step where
  | done
  | busy
  | moved
  | rewrote
  | pausedFull
  deriving DecidableEq

/-- The newest key version, with what the move needs from it. -/
structure Target where
  version : ℤ
  createdAt : ℤ
  key : Bytes32
  dedupKey : Bytes32
  deriving DecidableEq

inductive Work where
  | move (pack : Bytes32)
  | rewrite (id : Id) (snapshot : Snapshot)

def keyDamaged : String := "This backup's key is damaged."

/-! ### Finding work -/

/-- The newest key version of a shared backup. -/
def loadTarget (db : Db) (protection : String) : Except String (Option Target) :=
  match db.protections.get? protection with
  | none => .ok none
  | some row =>
    if row.privateOwner ≠ "" then .ok none
    else
      match db.latestBackupKey protection with
      | none => .ok none
      | some latest =>
        match toFixed 32 latest.key, toFixed 32 latest.dedupKey with
        | some key, some dedupKey => .ok (some ⟨latest.version, latest.createdAt, key, dedupKey⟩)
        | _, _ => .error keyDamaged

/-- Some chunk is in the pack. -/
def holdsChunks (db : Db) (pack : Bytes32) : Bool := db.chunks.any fun _ place => place.pack = pack

/-- Packs a snapshot links to that are under an older version and still hold chunks, in id order. The
snapshot's own tree pack is never moved. -/
def candidates (db : Db) (id : Id) (snapshot : Snapshot) (scope : Bytes) (createdAt : ℤ) : List Bytes32 :=
  sortIds ((db.packs.select fun pack row => (id, pack) ∈ db.links ∧ row.scope = scope ∧
    pack ≠ snapshot.treePackId ∧ row.createdAt < createdAt ∧ holdsChunks db pack).map Prod.fst)

/-- The key version has the dedup key of the target. -/
def sameDedupLine (db : Db) (protection : String) (version : ℤ) (dedupKey : Bytes32) : Bool :=
  match db.backupKeys.get? (protection, version) with
  | some k => k.dedupKey = dedupKey.val
  | none => false

/-- A snapshot still links to a pack from an older version, even one with no chunks left. -/
def hasOldLink (db : Db) (id : Id) (snapshot : Snapshot) (createdAt : ℤ) : Bool :=
  db.packs.any fun pack row => (id, pack) ∈ db.links ∧ pack ≠ snapshot.treePackId ∧ row.createdAt < createdAt

/-- What one snapshot needs: its older packs first, then its own rewrite. A snapshot under another dedup
key is left alone. -/
def workOf (db : Db) (protection : String) (target : Target) (scope : Bytes) (id : Id)
    (snapshot : Snapshot) : Option Work :=
  if !sameDedupLine db protection snapshot.keyVersion target.dedupKey then none
  else
    match (candidates db id snapshot scope target.createdAt).head? with
    | some pack => some (.move pack)
    | none =>
      if snapshot.keyVersion < target.version ∨ hasOldLink db id snapshot target.createdAt then
        some (.rewrite id snapshot)
      else none

/-- The next piece of work, newest snapshot first. -/
def nextWork (db : Db) (protection : String) (target : Target) (scope : Bytes) : Option Work :=
  (db.listCloudSnapshots protection).findSome? fun s => workOf db protection target scope s.1 s.2

/-! ### Counters and markers -/

def readMoved (db : Db) (protection : String) (version : ℤ) : ℕ :=
  match db.moved.get? protection with
  | some (v, bytes) => if v = version then bytes else 0
  | none => 0

def finishCounters (db : Db) (protection : String) : Db :=
  { db with
    moved := db.moved.erase protection
    paused := db.paused.erase protection }

/-- Some rewritten snapshot's record has not reached the cloud yet. -/
def recordUploadPending (db : Db) : Bool :=
  db.resync.any fun k _ => (db.protections.get? k.1).isSome

/-- Send the records that a committed rewrite still owes. A marker is cleared after its upload. -/
def resyncEach (protection : String) : List (Id × Id) → Job Unit
  | [] => return ()
  | (snapshot, name) :: rest => do
    match ← read (.readRecord snapshot) fun db => (db.snapshots.get? snapshot).map Snapshot.record with
    | some record => putRecord (.snapshot name) (.snapshot record)
    | none => pure ()
    write (.clearResync protection snapshot) fun db =>
      { db with resync := db.resync.erase (protection, snapshot) }
    resyncEach protection rest

def resyncRecords (protection : String) : Job Unit := do
  let pending ← read (.listResync protection) fun db =>
    (db.resync.select fun k _ => k.1 = protection).map fun r => (r.1.2, r.2)
  resyncEach protection pending

/-! ### Parts of a step -/

/-- Forget the row of a pack that was never uploaded. -/
def forgetUnsent (pack : Bytes32) : Job Unit := write (.forgetUnsent pack) fun db => db.deletePackRow pack

/-- A pack that was uploaded but not committed is left to the normal cleanup. -/
def markUploadedUnused (pack : Bytes32) (now : ℤ) : Job Unit :=
  write (.markUnused pack) fun db => db.updatePack pack fun row =>
    { row with state := .marked, markedAt := now }

/-- Full storage pauses the move; any other store error fails the step. -/
def pauseOrFail (protection : String) (e : StoreError) : Job Step := do
  match e with
  | .full =>
    write (.pause protection) fun db => { db with paused := insert protection db.paused }
    return .pausedFull
  | e => .fail (.error e.text)

/-- The chunks the index has in a pack, in the order they lie in it. -/
def chunkRows (db : Db) (scope : Bytes) (pack : Bytes32) : List Bytes32 :=
  ((db.chunks.select fun k place => k.1 = scope ∧ place.pack = pack).insertionSort
    fun a b => a.2.offset ≤ b.2.offset).map fun r => r.1.2

/-- The chunks of the opened pack, checked against their ids, in a new builder. -/
def rebuild (dedupKey : Bytes32) (opened : OpenedPack) :
    List Bytes32 → PackBuilder → Except Fault PackBuilder
  | [], b => .ok b
  | id :: ids, b =>
    match opened.chunk id with
    | none => .error (.error
        "A backup file is missing a file it should hold. The move stopped and nothing was changed.")
    | some plain =>
      if c.chunkId dedupKey plain ≠ id then .error (.error
        "A backup file does not match its contents. The move stopped and nothing was changed.")
      else
        match b.add id plain with
        | none => .error .panic
        | some (b, _) => rebuild dedupKey opened ids b

/-- The index change, the snapshot links and the byte count. Every snapshot of the backup that links the
old pack links the new one too; the old link stays. -/
def commitMove (db : Db) (protection : String) (target : Target) (scope : Bytes) (old : Bytes32)
    (pack : SealedPack) : Except String Db :=
  match db.packs.get? old with
  | none => .error "Query returned no rows"
  | some row =>
    let moved := readMoved db protection target.version + row.size
    let linking := db.links.filter fun l => l.2 = old ∧
      (db.snapshots.get? l.1).any fun s => s.protectionId = protection
    let db := (db.setPackLive pack.id pack.bytes.length).insertChunks scope pack.id pack.entries
    .ok { db with
      links := db.links ∪ linking.image fun l => (l.1, pack.id)
      moved := db.moved.put protection (target.version, moved)
      paused := db.paused.erase protection }

/-- Seal one older pack again under the target key. -/
def moveOne (protection : String) (target : Target) (scope : Bytes) (old : Bytes32) (runId : Id)
    (now : ℤ) : Job Step := do
  if now < target.createdAt then .fail (.error
    "This Luna's clock is set before the newest backup key was made, so the move waits.")
  else
  let scopeId := scopeIdOf c target.dedupKey
  let (oldKeys, rows) ← read (.readRows old) fun db =>
    ((db.listBackupKeys protection).filter fun k => k.version < target.version, chunkRows db scope old)
  if rows = [] then .fail (.error "This backup file no longer holds any files to move.")
  else
  let bytes ← getPack old
  let opened ← orError (openPack c bytes old (unwrapNewestFirst c oldKeys))
  if opened.scopeId ≠ scopeId then .fail (.error
    "A backup file belongs to another backup. The move stopped and nothing was changed.")
  else
  let b ← Prog.ofExcept (rebuild c target.dedupKey opened rows (PackBuilder.new scopeId))
  let pack ← sealPack c target.key b
  insertPack pack scope runId now
  match ← putPack pack.id pack.bytes with
  | .error e =>
    forgetUnsent pack.id
    pauseOrFail protection e
  | .ok () =>
    let committed ← ((transact (.commitMove old pack.id) fun db =>
      commitMove db protection target scope old pack).attempt : Job (Except Fault Unit))
    match committed with
    | .error e =>
      markUploadedUnused pack.id now
      .fail e
    | .ok () => return .moved

/-- One chunk's current place; it must be in a committed pack under the target. -/
def placeChunk (db : Db) (target : Target) (scope : Bytes) (ref : ChunkRef) : Except String ChunkRef :=
  match db.chunks.get? (scope, ref.id) with
  | none => .error "A file in this backup is missing from the cloud index. Try the backup again."
  | some place =>
    match db.packs.get? place.pack with
    | none => .error "Query returned no rows"
    | some row =>
      if row.state ≠ .live ∨ row.createdAt < target.createdAt then .error
        "A file in this backup is still stored under an older version. The move stopped and nothing was changed."
      else .ok ⟨ref.id, place.pack, place.offset, place.len⟩

def placeChunks (db : Db) (target : Target) (scope : Bytes) (entries : List TreeEntry) :
    Except String (List TreeEntry) :=
  entries.mapM fun e => do
    let chunks ← e.chunks.mapM (placeChunk db target scope)
    return { e with chunks := chunks }

/-- The chunks of a tree. -/
def chunkIds (entries : List TreeEntry) : List Bytes32 := entries.flatMap fun e => e.chunks.map ChunkRef.id

/-- The packs the chunks of a tree are in. -/
def linksOf (entries : List TreeEntry) : List Bytes32 :=
  (entries.flatMap fun e => e.chunks.map ChunkRef.pack).dedup

/-- The snapshot row, its pack links and the tree's index row. Packs no snapshot uses any more are
marked, and a marker says that the record is still to be sent. -/
def commitRewrite (db : Db) (protection : String) (target : Target) (scope : Bytes) (id : Id)
    (snapshot : Snapshot) (tree : Bytes32) (treeHash : Bytes32) (place : IndexEntry)
    (signed : SignedRecord) (links : List Bytes32) (now : ℤ) : Except String Db := do
  let db := { db with
    snapshots := db.snapshots.update fun id' s => if id' = id then
      { s with keyVersion := target.version, treePackId := tree, record := signed } else s
    links := db.links.filter fun l => l.1 ≠ id
    chunks := db.chunks.keep fun k p => ¬ (k.1 = scope ∧ p.pack = snapshot.treePackId) }
  let db := db.insertChunk scope treeHash ⟨tree, place.offset, place.len⟩
  let db ← Db.linkPacks id (sortIds (tree :: links).dedup) db
  let db := db.markUnusedPacks scope now
  return { db with
    paused := db.paused.erase protection
    resync := db.resync.put (protection, id) id }

/-- What a rewrite reads first: Luna's identity and the key the snapshot's tree is under. -/
def rewriteKeys (db : Db) (protection : String) (snapshot : Snapshot) : Except String (Identity × Bytes32) := do
  let some id := db.identity | throw "Set up cloud backup on this Luna before running a backup."
  let some old := (db.listBackupKeys protection).find? fun k => k.version = snapshot.keyVersion
    | throw "The key for a backup's last copy is missing."
  let some key := toFixed 32 old.key | throw keyDamaged
  return (id, key)

/-- Rewrite one snapshot under the target key, once every pack it uses has moved. -/
def rewriteOne (protection : String) (target : Target) (scope : Bytes) (id : Id) (snapshot : Snapshot)
    (runId : Id) (now : ℤ) : Job Step := do
  let (luna, oldKey) ← orError =<< read (.readKeys protection) fun db => rewriteKeys db protection snapshot
  let oldRecord ← orError (snapshot.record.verify c (c.sigPublic luna.seed))
  let oldTree ← readTree c j oldRecord oldKey
  let details ← orError (decryptMeta c j oldRecord.details oldKey)
  let entries ← orError =<< read (.placeChunks scope (chunkIds oldTree.entries)) fun db =>
    placeChunks db target scope oldTree.entries
  let (treeHash, place, pack) ← buildTree c j (scopeIdOf c target.dedupKey) ⟨entries⟩ target.key
  let newDetails ← Prog.look .draw fun i _ => encryptMeta c j details target.key (i.nonce 0)
  let signed := SnapshotRecord.sign c luna.seed ⟨luna.lunaId, protection, id, oldRecord.createdAt,
    (target.version % 2 ^ 32).toNat, pack.id, treeHash, newDetails⟩
  insertPack pack scope runId now
  match ← putPack pack.id pack.bytes with
  | .error e =>
    forgetUnsent pack.id
    pauseOrFail protection e
  | .ok () =>
    let committed ← ((transact (.commitRewrite id pack.id (linksOf entries)) fun db =>
      commitRewrite db protection target scope id snapshot pack.id treeHash place signed
        (linksOf entries) now).attempt : Job (Except Fault Unit))
    match committed with
    | .error e =>
      markUploadedUnused pack.id now
      .fail e
    | .ok () =>
      putRecord (.snapshot id) (.snapshot signed)
      write (.clearResync protection id) fun db => { db with resync := db.resync.erase (protection, id) }
      return .rewrote

/-! ### The step -/

/-- The target and the next work; with nothing left the counters are forgotten. -/
def findWork (protection : String) : Job (Option (Target × Work)) :=
  Prog.tryAct (.nextWork protection) fun _ s =>
    match loadTarget s.db protection with
    | .error e => (.error (.error e), s)
    | .ok none => (.ok none, s)
    | .ok (some target) =>
      match nextWork s.db protection target (scopeName (scopeIdOf c target.dedupKey)) with
      | some work => (.ok (some (target, work)), s)
      | none => (.ok none, { s with db := finishCounters s.db protection })

/-- The step's own run row, which keeps cleanup from the packs it uses. -/
def startStepRun (protection : String) (scope : Bytes) (now : ℤ) : Job Id :=
  Prog.tryAct .startRun fun i s =>
    match s.db.startRun i.id protection scope now with
    | .ok db => (.ok i.id, { s with db := db })
    | .error e => (.error (.error e), s)

def stepHolding (protection : String) (now : ℤ) : Job Step := do
  resyncRecords protection
  match ← findWork c protection with
  | none => return .done
  | some (target, work) =>
    let scope := scopeName (scopeIdOf c target.dedupKey)
    let runId ← startStepRun protection scope now
    let result ← ((match work with
      | .move pack => moveOne c protection target scope pack runId now
      | .rewrite id snapshot => rewriteOne c j protection target scope id snapshot runId now).attempt :
        Job (Except Fault Step))
    match result with
    | .error .panic => .fail .panic
    | .error (.error e) =>
      write (.endRun runId) fun db => db.endRun runId now
      .fail (.error e)
    | .ok step =>
      write (.endRun runId) fun db => db.endRun runId now
      return step

/-- One step of the move. It holds the backup, so a run and the move take turns. -/
def rewrapStep (protection : String) (now : ℤ) : Job Step := do
  let (slots, _) ← takeSlots [protection]
  if slots = [] then
    return .busy
  else
    let result ← ((stepHolding c j protection now).attempt : Job (Except Fault Step))
    dropSlots slots
    Prog.ofExcept result

/-! ### What the commits do to the tables -/

section Commits

variable {db db' : Db} {protection : String} {target : Target} {scope : Bytes}

/-- A move makes the new pack live, points the index at it, and links it wherever a snapshot of the
backup links the old one. -/
theorem commitMove_ok {old : Bytes32} {pack : SealedPack}
    (h : commitMove db protection target scope old pack = .ok db') :
    db' = { db with packs := db'.packs, chunks := db'.chunks, links := db'.links, moved := db'.moved,
                    paused := db'.paused } ∧
      (∀ p, db'.packs.get? p = (db.packs.get? p).map fun row =>
        if p = pack.id then { row with state := .live, size := pack.bytes.length } else row) ∧
      (∀ k, (db'.chunks.get? k = db.chunks.get? k ∧ (k.1 = scope → k.2 ∉ pack.entries.map IndexEntry.id)) ∨
        ∃ e ∈ pack.entries, k = (scope, e.id) ∧ db'.chunks.get? k = some ⟨pack.id, e.offset, e.len⟩) ∧
      ∀ l, l ∈ db'.links ↔ l ∈ db.links ∨ (l.2 = pack.id ∧ (l.1, old) ∈ db.links ∧
        ∃ s, db.snapshots.get? l.1 = some s ∧ s.protectionId = protection) := by
  unfold commitMove at h
  split at h
  · cases h
  rename_i row hrow
  obtain rfl := ok.inj h
  have hdb := Db.insertChunks_eq (db.setPackLive pack.id pack.bytes.length) scope pack.id pack.entries
  refine ⟨by rw [hdb]; rfl, fun p => ?_, fun k => ?_, fun l => ?_⟩
  · rw [hdb]
    exact Db.updatePack_packs ..
  · exact Db.insertChunks_get? (db.setPackLive pack.id pack.bytes.length) scope pack.id pack.entries k
  · rw [hdb]
    simp only [Db.setPackLive, Db.updatePack, Finset.mem_union, Finset.mem_image, Finset.mem_filter,
      Option.any_eq_true, decide_eq_true_eq]
    refine or_congr_right ⟨?_, ?_⟩
    · rintro ⟨⟨id, p⟩, ⟨hmem, rfl, hs⟩, rfl⟩
      exact ⟨rfl, hmem, hs⟩
    · rintro ⟨hp, hmem, hs⟩
      exact ⟨(l.1, old), ⟨hmem, rfl, hs⟩, Prod.ext rfl hp.symm⟩

/-- A rewrite puts the snapshot under the target, links it to its new tree and the packs of its chunks
only, and marks what no snapshot uses any more. -/
theorem commitRewrite_ok {id : Id} {snapshot : Snapshot} {tree treeHash : Bytes32} {place : IndexEntry}
    {signed : SignedRecord} {links : List Bytes32} {now : ℤ}
    (h : commitRewrite db protection target scope id snapshot tree treeHash place signed links now = .ok db') :
    db' = { db with packs := db'.packs, chunks := db'.chunks, snapshots := db'.snapshots,
                    links := db'.links, paused := db'.paused, resync := db'.resync } ∧
      (∀ p, db'.packs.get? p = (db.packs.get? p).map fun row =>
        if p ∈ tree :: links then { row with state := .live, markedAt := 0 }
        else if row.scope = scope ∧ row.state = .live ∧ db'.linked p = false then
          { row with state := .marked, markedAt := now }
        else row) ∧
      (∀ k, db'.chunks.get? k = if k = (scope, treeHash) then some ⟨tree, place.offset, place.len⟩
        else (db.chunks.get? k).filter fun p => ¬ (k.1 = scope ∧ p.pack = snapshot.treePackId)) ∧
      (∀ i, db'.snapshots.get? i = (db.snapshots.get? i).map fun s => if i = id then
        { s with keyVersion := target.version, treePackId := tree, record := signed } else s) ∧
      (∀ l, l ∈ db'.links ↔ (l ∈ db.links ∧ l.1 ≠ id) ∨ (l.1 = id ∧ l.2 ∈ tree :: links)) ∧
      db'.resync = db.resync.put (protection, id) id ∧
      ∀ p ∈ tree :: links, ∃ row, db.packs.get? p = some row ∧ row.state ≠ .deleting := by
  unfold commitRewrite at h
  simp only [bind, Except.bind] at h
  split at h
  · cases h
  rename_i db1 hlink
  obtain ⟨heq, hpacks, hlinks, hthere⟩ := Db.linkPacks_ok hlink
  obtain rfl := ok.inj h
  have hmem : ∀ p, p ∈ sortIds (tree :: links).dedup ↔ p ∈ tree :: links := fun p => by
    rw [Db.mem_sortIds, mem_dedup]
  have hlinked : ∀ p ∈ tree :: links, db1.linked p = true := fun p hp =>
    Db.linked_iff.mpr ⟨id, (hlinks _).mpr (.inr ⟨rfl, (hmem p).mpr hp⟩)⟩
  refine ⟨by rw [heq]; rfl, fun p => ?_, fun k => ?_, fun i => ?_, fun l => ?_, ?_, fun p hp => ?_⟩
  · refine (Db.markUnusedPacks_get? db1 scope now p).trans ?_
    rw [hpacks p, Option.map_map]
    refine congrArg (Option.map · _) (funext fun row => ?_)
    by_cases hp : p ∈ tree :: links
    · simp only [hmem, hp, hlinked p hp]
      simp
    · simp only [hmem, hp]
      rfl
  · rw [heq]
    simp only [Db.markUnusedPacks, Db.insertChunk, get?_put, Table.get?_keep]
  · rw [heq]
    simp only [Db.markUnusedPacks, Db.insertChunk, get?_update]
  · simp only [Db.markUnusedPacks, hlinks, hmem, Db.insertChunk, Finset.mem_filter]
  · rw [heq]
    rfl
  · obtain ⟨row, hrow, hstate⟩ := hthere p ((hmem p).mpr hp)
    exact ⟨row, hrow, hstate⟩

theorem mem_chunkRows {pack id : Bytes32} :
    id ∈ chunkRows db scope pack ↔ ∃ place, db.chunks.get? (scope, id) = some place ∧ place.pack = pack := by
  simp only [chunkRows, mem_map, mem_insertionSort, Prod.exists, mem_select, decide_eq_true_eq]
  constructor
  · rintro ⟨scope', id', place, ⟨hget, rfl, hpack⟩, rfl⟩
    exact ⟨place, hget, hpack⟩
  · rintro ⟨place, hget, hpack⟩
    exact ⟨scope, id, place, ⟨hget, rfl, hpack⟩, rfl⟩

theorem placeChunk_ok {ref ref' : ChunkRef} (h : placeChunk db target scope ref = .ok ref') :
    ∃ place row, db.chunks.get? (scope, ref.id) = some place ∧ db.packs.get? place.pack = some row ∧
      row.state = .live ∧ target.createdAt ≤ row.createdAt ∧
      ref' = ⟨ref.id, place.pack, place.offset, place.len⟩ := by
  unfold placeChunk at h
  split at h
  · cases h
  rename_i place hplace
  split at h
  · cases h
  rename_i row hrow
  split at h
  · cases h
  · rename_i hcond
    rw [not_or, not_not, not_lt] at hcond
    exact ⟨place, row, hplace, hrow, hcond.1, hcond.2, (ok.inj h).symm⟩

theorem placeChunks_ok {es es' : List TreeEntry} (h : placeChunks db target scope es = .ok es') :
    List.Forall₂ (fun e e' => e' = { e with chunks := e'.chunks } ∧
      List.Forall₂ (fun ref ref' => placeChunk db target scope ref = .ok ref') e.chunks e'.chunks) es es' := by
  refine (forall₂_of_mapM h).imp fun e e' he => ?_
  cases hchunks : e.chunks.mapM (placeChunk db target scope) with
  | error message => simp [hchunks, bind, Except.bind] at he
  | ok chunks =>
    rw [hchunks] at he
    obtain rfl := ok.inj he
    exact ⟨rfl, forall₂_of_mapM hchunks⟩

/-- Every pack a rewritten tree refers to is live and not older than the target. -/
theorem linksOf_placed {es es' : List TreeEntry} (h : placeChunks db target scope es = .ok es')
    {pack : Bytes32} (hpack : pack ∈ linksOf es') :
    ∃ row, db.packs.get? pack = some row ∧ row.state = .live ∧ target.createdAt ≤ row.createdAt := by
  rw [linksOf, mem_dedup, mem_flatMap] at hpack
  obtain ⟨e', he', hpack⟩ := hpack
  obtain ⟨ref', href', rfl⟩ := mem_map.mp hpack
  obtain ⟨e, -, -, hchunks⟩ := exists_of_forall₂ (placeChunks_ok h) he'
  obtain ⟨ref, -, href⟩ := exists_of_forall₂ hchunks href'
  obtain ⟨place, row, -, hrow, hlive, hnew, rfl⟩ := placeChunk_ok href
  exact ⟨row, hrow, hlive, hnew⟩

end Commits

end LibreServ.Cloud
