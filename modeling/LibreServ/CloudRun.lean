import LibreServ.CloudKeys

/-! One backup run (`backup/cloud/run.rs`): the key is made sure of and, if it is new, published; every
file is cut into chunks, and those the index does not know go into packs; the tree and a signed record
follow, and last the local commit. The file system and the chunker are outside: a source is the list of
files with their chunks as they would be read. -/

namespace LibreServ.Cloud

open Sections

variable (c : Crypto) (j : Json)

def packFlushBytes : ℕ := 8 * 2 ^ 20
def packKeyWrapAad : Bytes := "luna-pack-key-wrap-v1".toUTF8.toList
def scopeDomain : Bytes := "luna-scope-v1".toUTF8.toList

/-- One file as the walk finds it, with the chunks the chunker would cut and where reading it stops. -/
structure SourceFile where
  path : String
  size : ℕ
  mtime : ℤ
  chunks : List Bytes
  unreadable : Option String

/-- The folder being backed up. -/
structure Source where
  isFile : String → Bool
  files : Except String (List SourceFile)

structure CloudOutcome where
  uploadedBytes : ℕ
  files : ℕ
  reusedChunks : ℕ
  snapshotId : Option Id
  problem : Option String
  sourceMissing : Bool
  busy : Bool
  deriving DecidableEq

def problemOutcome (message : String) : CloudOutcome := ⟨0, 0, 0, none, some message, false, false⟩

def busyOutcome : CloudOutcome :=
  ⟨0, 0, 0, none, some "This backup is busy right now. Luna will try again in a few minutes.", false, true⟩

def sourceMissingText : String :=
  "The source looks missing or unplugged. Plug the drive back in, then try again."

def checkFailedText : String :=
  "Luna couldn't compare this folder with the last cloud copy, so it paused this backup. Try again, or choose Back up anyway if the folder looks right."

/-- Everything a run needs that does not change while it copies. -/
structure RunContext where
  runId : Id
  protectionId : String
  scope : Bytes
  scopeId : Bytes32
  dedupKey : Bytes32
  keyVersion : ℤ
  identity : Identity
  details : Bytes
  keyBytes : Bytes32

/-- The recipients of a new key version, their sealing keys as read, and the key to publish. -/
structure Publish where
  recipients : List String
  userPub : Table String SealPublic
  key : BackupKey

/-! ### Reading a snapshot back -/

/-- The first backup key that opens the wrapped pack key, in the order given. -/
def unwrapWith : List BackupKey → Bytes → Except String Bytes32
  | [], _ => .error "A backup file could not be opened with this Luna's keys."
  | k :: keys, wrapped =>
    match toFixed 32 k.key with
    | none => unwrapWith keys wrapped
    | some key =>
      match c.decrypt key packKeyWrapAad wrapped with
      | .error _ => unwrapWith keys wrapped
      | .ok plain =>
        match toFixed 32 plain with
        | some packKey => .ok packKey
        | none => unwrapWith keys wrapped

/-- Unwrap a pack's key with any of the backup's keys, newest version first. -/
def unwrapNewestFirst (keys : List BackupKey) : Bytes → Except String Bytes32 :=
  unwrapWith c (keys.insertionSort fun a b => b.version ≤ a.version)

/-- A tree pack is opened with the one key its record names. -/
def unwrapTree (treeKey : Bytes32) (wrapped : Bytes) : Except String Bytes32 := do
  let plain ← c.decrypt treeKey packKeyWrapAad wrapped
  match toFixed 32 plain with
  | some packKey => return packKey
  | none => throw "This backup file's key could not be read."

/-- The tree in the bytes of its pack. -/
def treeOfPack (bytes : Bytes) (record : SnapshotRecord) (treeKey : Bytes32) : Except String Tree := do
  let pack ← openPack c bytes record.treePackId (unwrapTree c treeKey)
  match pack.chunk record.treeHash with
  | none => throw "This backup's file list is missing from its backup file."
  | some sealed =>
    if c.sha256 sealed ≠ record.treeHash then
      throw "This backup's file list does not match its fingerprint. It may be damaged."
    decryptTree c j sealed treeKey

def readTree (record : SnapshotRecord) (treeKey : Bytes32) : Job Tree := do
  let bytes ← getPack record.treePackId
  orError (treeOfPack c j bytes record treeKey)

/-- The record of the newest snapshot and the key its tree is under. -/
def lastCopy (db : Db) (protection : String) : Except String (Option (SnapshotRecord × Bytes32)) := do
  match (db.listCloudSnapshots protection).head? with
  | none => return none
  | some (_, last) =>
    let some id := db.identity | throw "Luna's cloud identity is missing."
    let record ← last.record.verify c (c.sigPublic id.seed)
    let some key := (db.listBackupKeys protection).find? fun k => k.version = last.keyVersion
      | throw "The key for the last copy is missing."
    let some treeKey := toFixed 32 key.key | throw "This backup's key is damaged."
    return some (record, treeKey)

def mostFilesMissing (tree : Tree) (source : Source) : Bool :=
  let missing := (tree.entries.filter fun e => !source.isFile e.path).length
  tree.entries ≠ [] ∧ tree.entries.length < missing * 2

def sourceLooksMissing (protection : String) (source : Source) : Job Bool := do
  match ← read (.lastCopy protection) fun db => lastCopy c db protection with
  | .error e => .fail (.error e)
  | .ok none => return false
  | .ok (some (record, treeKey)) =>
    let tree ← readTree c j record treeKey
    return mostFilesMissing tree source

/-! ### Getting ready -/

/-- The last folder of the source, or its drive. -/
def backupName (path drive : String) : String :=
  let last := (path.toList.reverse.dropWhile (· = '/')).takeWhile (· ≠ '/')
  if last = [] then drive else String.ofList last.reverse

def startedByName (db : Db) (user : String) : String :=
  match db.users.get? user with
  | none => ""
  | some u => if u.displayName = "" then u.username else u.displayName

/-- Users with a usable sealing key. -/
def userPublics (db : Db) : Table String SealPublic where
  rows := db.userKeys.rows.filterMap fun u => (toFixed sealPublicLen u.2.sealPublic).map fun k => (u.1, k)
  nodup := by
    refine (List.Nodup.sublist ?_ db.userKeys.nodup)
    induction db.userKeys.rows with
    | nil => exact List.Sublist.slnil
    | cons u rows ih =>
      cases h : toFixed sealPublicLen u.2.sealPublic with
      | none => simpa [h] using ih.cons u.1
      | some k => simpa [h] using ih

def runRecipients (db : Db) (row : Protection) : List String :=
  recipientsOf ((db.users.rows.filter fun u =>
    row.access.allows u.1 u.2.admin ∧ ((userPublics db).get? u.1).isSome).map Prod.fst)

/-- Only an Admin can open a key copy in a disaster. -/
def adminReady (db : Db) (recipients : List String) : Bool :=
  db.users.any fun user u => u.admin ∧ user ∈ recipients

def scopeIdOf (dedupKey : Bytes32) : Bytes32 := c.chunkId dedupKey scopeDomain

/-- A scope's name is the first half of its id. -/
def scopeName (scopeId : Bytes32) : Bytes := scopeId.val.take 16

/-- The part of `prepare` after the key is made sure of: the run row is opened last. -/
def openRun (i : Input) (protection : String) (row : Protection) (id : Identity) (key : BackupKey) (now : ℤ)
    (db : Db) : Except String RunContext × Db :=
  match toFixed 32 key.key, toFixed 32 key.dedupKey with
  | some keyBytes, some dedupKey =>
    let scopeId := scopeIdOf c dedupKey
    match db.startRun i.id protection (scopeName scopeId) now with
    | .error e => (.error e, db)
    | .ok db =>
      let details := encryptMeta c j ⟨backupName row.sourcePath row.sourceDrive, row.sourceDrive,
        row.sourcePath, row.createdBy, startedByName db row.createdBy⟩ keyBytes (i.nonce 0)
      (.ok ⟨i.id, protection, scopeName scopeId, scopeId, dedupKey, key.version, id, details,
        keyBytes⟩, db)
  | _, _ => (.error "This backup's key is damaged.", db)

/-- Read the recipients, make sure of the key, and open the run row, all under one lock but not in one
transaction: a new key stays when opening the run fails. -/
def prepare (protection : String) (now : ℤ) (i : Input) (db : Db) :
    Except String (RunContext × Option Publish) × Db :=
  match db.protections.get? protection with
  | none => (.error "This backup no longer exists.", db)
  | some row =>
    match db.identity with
    | none => (.error "Set up cloud backup on this Luna before running a backup.", db)
    | some id =>
      let recipients := runRecipients db row
      if !adminReady db recipients then
        (.error "Waiting for an Admin to set up the recovery phrase.", db)
      else
        let before := (db.latestBackupKey protection).map BackupKey.version
        match ensureKey db protection recipients now (i.key 0) (i.key 1) with
        | .error e => (.error e, db)
        | .ok (key, db') =>
          let publish := if before = some key.version then none
            else some ⟨recipients, userPublics db, key⟩
          match openRun c j i protection row id key now db' with
          | (.ok ctx, db'') => (.ok (ctx, publish), db'')
          | (.error e, db'') => (.error e, db'')

/-! ### Copying -/

/-- The state of a copy: the pack being built with the chunks in it, the chunks this run has placed,
where each referenced chunk is, and the packs to link. -/
structure CopyState where
  builder : Option PackBuilder
  pending : List IndexEntry
  placed : Finset Bytes32
  located : Table Bytes32 ChunkPlace
  packIds : List Bytes32
  uploadedBytes : ℕ
  reusedChunks : ℕ

def CopyState.start : CopyState := ⟨none, [], ∅, Table.empty, [], 0, 0⟩

def wrapPackKey (keyBytes : Bytes32) (nonce : Fixed nonceLen) (packKey : Bytes32) : Bytes :=
  c.encrypt keyBytes nonce packKeyWrapAad packKey.val

/-- Seal a pack under a fresh random key. -/
def sealPack (keyBytes : Bytes32) (b : PackBuilder) : Job SealedPack := do
  let sealed ← Prog.look .draw fun i _ =>
    b.finish c (i.key 0) (i.nonce 0) (i.nonce 1) (wrapPackKey c keyBytes (i.nonce 2))
  orPanic sealed

/-- The pending row of a pack that is about to be uploaded. -/
def insertPack (pack : SealedPack) (scope : Bytes) (runId : Id) (now : ℤ) : Job Unit :=
  transact (.insertPack pack.id) fun db => do
    let db ← db.insertPendingPack pack.id scope runId now
    return db.recordPackSize pack.id pack.bytes.length

/-- Seal the pending pack, upload it, and record its chunks. -/
def flush (ctx : RunContext) (now : ℤ) (st : CopyState) : Job CopyState :=
  match st.builder with
  | none => return st
  | some b => do
    let pack ← sealPack c ctx.keyBytes b
    insertPack pack ctx.scope ctx.runId now
    match ← putPack pack.id pack.bytes with
    | .error e => .fail (.error e.text)
    | .ok () =>
      write (.insertChunks pack.id) fun db => db.insertChunks ctx.scope pack.id st.pending
      return { st with
        builder := none
        pending := []
        located := st.pending.foldl (fun t e => t.put e.id ⟨pack.id, e.offset, e.len⟩) st.located
        packIds := st.packIds ++ [pack.id]
        uploadedBytes := st.uploadedBytes + pack.bytes.length }

/-- One chunk: placed in this run already, known to the index, or new. -/
def chunk (ctx : RunContext) (now : ℤ) (plain : Bytes) (st : CopyState) : Job (Bytes32 × CopyState) := do
  let id := c.chunkId ctx.dedupKey plain
  if id ∈ st.placed then
    return (id, st)
  else
    match ← read (.findChunk ctx.scope id) fun db => db.findChunk ctx.scope id with
    | some place =>
      return (id, { st with
        reusedChunks := st.reusedChunks + 1
        located := st.located.put id place
        packIds := if place.pack ∈ st.packIds then st.packIds else st.packIds ++ [place.pack] })
    | none =>
      let (b, e) ← orPanic ((st.builder.getD (PackBuilder.new ctx.scopeId)).add id plain)
      let st := { st with
        builder := some b
        pending := st.pending ++ [e]
        placed := insert id st.placed }
      if packFlushBytes ≤ b.plain.length then
        let st ← flush c ctx now st
        return (id, st)
      else
        return (id, st)

def copyChunks (ctx : RunContext) (now : ℤ) :
    List Bytes → CopyState → Job (List Bytes32 × CopyState)
  | [], st => return ([], st)
  | plain :: rest, st => do
    let (id, st) ← chunk c ctx now plain st
    let (ids, st) ← copyChunks ctx now rest st
    return (id :: ids, st)

/-- A file of the tree before its chunks have their places. -/
structure Draft where
  path : String
  size : ℕ
  mtime : ℤ
  ids : List Bytes32

def copyFiles (ctx : RunContext) (now : ℤ) : List SourceFile → CopyState → Job (List Draft × CopyState)
  | [], st => return ([], st)
  | file :: rest, st => do
    let (ids, st) ← copyChunks c ctx now file.chunks st
    match file.unreadable with
    | some e => .fail (.error e)
    | none =>
      let (drafts, st) ← copyFiles ctx now rest st
      return (⟨file.path, file.size, file.mtime, ids⟩ :: drafts, st)

/-- The pack and place of a chunk this run has stored or reused. -/
def locate (st : CopyState) (id : Bytes32) : Except String ChunkRef :=
  match st.located.get? id with
  | some place => .ok ⟨id, place.pack, place.offset, place.len⟩
  | none => .error "A file's data was not stored. Try the backup again."

def locateAll (st : CopyState) (drafts : List Draft) : Except String (List TreeEntry) :=
  drafts.mapM fun d => do
    let chunks ← d.ids.mapM (locate st)
    return ⟨d.path, d.size, d.mtime, chunks⟩

/-- A sealed tree in a pack of its own; its chunk id is its hash. -/
def buildTree (scopeId : Bytes32) (tree : Tree) (keyBytes : Bytes32) :
    Job (Bytes32 × IndexEntry × SealedPack) := do
  let treeBytes ← Prog.look .draw fun i _ => encryptTree c j tree keyBytes (i.nonce 0)
  let (b, e) ← orPanic ((PackBuilder.new scopeId).add (c.sha256 treeBytes) treeBytes)
  let pack ← sealPack c keyBytes b
  return (c.sha256 treeBytes, e, pack)

/-- Copy every file, upload the tree and a signed record, and commit. -/
def copyAndCommit (ctx : RunContext) (source : Source) (now : ℤ) : Job CloudOutcome := do
  match source.files with
  | .error e => .fail (.error s!"Could not read the folder being backed up: {e}")
  | .ok files =>
    let (drafts, st) ← copyFiles c ctx now files CopyState.start
    let st ← flush c ctx now st
    let entries ← orError (locateAll st drafts)
    let (treeHash, e, pack) ← buildTree c j ctx.scopeId ⟨entries⟩ ctx.keyBytes
    insertPack pack ctx.scope ctx.runId now
    match ← putPack pack.id pack.bytes with
    | .error e => .fail (.error e.text)
    | .ok () =>
      write (.insertChunks pack.id) fun db =>
        db.insertChunk ctx.scope treeHash ⟨pack.id, e.offset, e.len⟩
      let packIds := st.packIds ++ [pack.id]
      let snapshotId ← Prog.look .drawSnapshot fun i _ => i.id
      let signed := SnapshotRecord.sign c ctx.identity.seed ⟨ctx.identity.lunaId, ctx.protectionId,
        snapshotId, now, (ctx.keyVersion % 2 ^ 32).toNat, pack.id, treeHash, ctx.details⟩
      putRecord (.snapshot snapshotId) (.snapshot signed)
      transact (.commitSnapshot packIds) fun db =>
        db.commitSnapshotTx snapshotId
          ⟨ctx.protectionId, now, ctx.keyVersion % 2 ^ 32, pack.id, signed⟩ packIds
      return ⟨st.uploadedBytes + pack.bytes.length, files.length, st.reusedChunks, some snapshotId,
        none, false, false⟩

/-- A new key version is published first. -/
def publishAndCopy (ctx : RunContext) (publish : Option Publish) (source : Source) (now : ℤ) :
    Job CloudOutcome := do
  match publish with
  | some p => publishKey c j ctx.identity ctx.protectionId p.key p.recipients p.userPub.get?
  | none => pure ()
  copyAndCommit c j ctx source now

/-- The check of the source, unless the user chose to go on. -/
def checkSource (protection : String) (source : Source) (acceptMissing : Bool) : Job (Except Fault Bool) :=
  if acceptMissing then return .ok false else (sourceLooksMissing c j protection source).attempt

/-- The run from the check of the source on. -/
def runHolding (protection : String) (source : Source) (acceptMissing : Bool) (now : ℤ) :
    Job CloudOutcome := do
  let held ← checkSource c j protection source acceptMissing
  match held with
  | .error .panic => .fail .panic
  | .error (.error _) => return { problemOutcome checkFailedText with sourceMissing := true }
  | .ok true => return { problemOutcome sourceMissingText with sourceMissing := true }
  | .ok false =>
    let prepared ← Prog.act (.prepare protection) fun i s =>
      let (r, db) := prepare c j protection now i s.db
      (r, { s with db := db })
    match prepared with
    | .error e => return problemOutcome e
    | .ok (ctx, publish) =>
      let result ←
        ((publishAndCopy c j ctx publish source now).attempt : Job (Except Fault CloudOutcome))
      match result with
      | .error .panic => .fail .panic
      | .error (.error e) => do
        write (.endRun ctx.runId) fun db => db.endRun ctx.runId now
        return problemOutcome e
      | .ok outcome => do
        write (.endRun ctx.runId) fun db => db.endRun ctx.runId now
        return outcome

/-- One run: it holds the backup's slot, first finishes the re-seals that are owed, and then copies. -/
def runWithRoot (protection : String) (source : Source) (acceptMissing : Bool) (now : ℤ) :
    Job CloudOutcome := do
  if ← takeSlot protection then
    let result ← ((do
      resealPendingHolding c j (some protection)
      runHolding c j protection source acceptMissing now).attempt : Job (Except Fault CloudOutcome))
    dropSlots [protection]
    Prog.ofExcept result
  else
    return busyOutcome

/-! ### What the sections of the parts change -/

section Only

variable {c j} {rel : Label → State → State → Prop}

theorem only_readTree (h : ∀ id s, rel (.getPack id) s s) (record : SnapshotRecord) (treeKey : Bytes32) :
    (readTree c j record treeKey).Only rel :=
  (only_getPack (h _)).bind fun _ => only_orError _

theorem only_sealPack (h : ∀ s, rel .draw s s) (keyBytes : Bytes32) (b : PackBuilder) :
    (sealPack c keyBytes b).Only rel :=
  (Prog.only_look h).bind fun _ => only_orPanic _

theorem only_buildTree (h : ∀ s, rel .draw s s) (scopeId : Bytes32) (tree : Tree) (keyBytes : Bytes32) :
    (buildTree c j scopeId tree keyBytes).Only rel :=
  (Prog.only_look h).bind fun _ => (only_orPanic _).bind fun _ =>
    (only_sealPack h _ _).bind fun _ => trivial

theorem only_checkSource (hread : ∀ protection s, rel (.lastCopy protection) s s)
    (hget : ∀ id s, rel (.getPack id) s s) (protection : String) (source : Source) (acceptMissing : Bool) :
    (checkSource c j protection source acceptMissing).Only rel := by
  unfold checkSource
  split
  · trivial
  · refine Prog.Only.attempt (Prog.Only.bind (only_read (hread protection)) fun last => ?_)
    rcases last with e | _ | ⟨record, treeKey⟩
    · trivial
    · trivial
    · exact (only_readTree hget _ _).bind fun _ => trivial

end Only

/-! A Luna that is set up for one backup and has copied nothing yet. -/

def readyLuna : State :=
  ⟨{ Db.empty with
      identity := some ⟨"luna", Fixed.fill 32 5⟩
      users := Table.empty.put "ana" ⟨true, "ana", "Ana"⟩
      userKeys := Table.empty.put "ana" ⟨(toyCrypto.sealPublic (Fixed.fill sealSecretLen 7)).val, [], []⟩
      protections := Table.empty.put "p" ⟨"d1", "/photos", "ana", "", ⟨["ana"], true⟩⟩ }, ⟨.empty, .empty⟩, ∅⟩

def photo (name : String) (bytes : Bytes) : Source :=
  ⟨fun _ => true, .ok [⟨name, bytes.length, 7, [bytes], none⟩]⟩

end LibreServ.Cloud
