import LibreServ.CloudDb

/-! Backup keys and their recipients (`backup/cloud/keys.rs`): which users can read a shared backup, the
versioned key that protects it, the copies of it that are sealed to each reader and kept in the store,
and the re-seal that follows a change of a reader's recovery phrase. -/

namespace LibreServ.Cloud

open Sections

variable (c : Crypto) (j : Json)

/-! ### Key versions -/

/-- Sorted and without duplicates. -/
def recipientsOf (users : List String) : List String := (users.insertionSort (· ≤ ·)).dedup

/-- Each recipient with their sealing key, empty for a user without a recovery phrase. -/
def readersOf (db : Db) (recipients : List String) : List (String × Bytes) :=
  recipients.map fun user => (user, ((db.userKeys.get? user).map UserKeys.sealPublic).getD [])

def readerIds (readers : List (String × Bytes)) : List String := readers.map Prod.fst

/-- The latest key version if it was made for exactly these readers and no rotation is asked for, else
the next version. A rotation for the same people keeps the dedup key. -/
def ensureKey (db : Db) (protection : String) (recipients : List String) (now : ℤ)
    (newKey newDedup : Bytes32) : Except String (BackupKey × Db) :=
  let readers := readersOf db recipients
  let latest := db.latestBackupKey protection
  let rotate := protection ∈ db.rotate
  let saved := latest.bind fun k => db.readers.get? (protection, k.version)
  match latest with
  | some k =>
    if saved = some readers ∧ ¬ rotate then .ok (k, db)
    else
      let samePeople := saved.any fun r => readerIds r = recipients
      let dedupKey := if rotate ∧ samePeople then k.dedupKey else newDedup.val
      create readers ⟨k.version + 1, newKey.val, dedupKey, now⟩
  | none => create readers ⟨1, newKey.val, newDedup.val, now⟩
where
  /-- The savepoint: the key, its readers, and the rotation mark taken away. -/
  create (readers : List (String × Bytes)) (key : BackupKey) : Except String (BackupKey × Db) := do
    let db ← db.insertBackupKey protection key
    return (key, { db with
      readers := db.readers.put (protection, key.version) readers
      rotate := db.rotate.erase protection })

/-! ### Published copies -/

def versionText (version : ℤ) : Bytes := (toString version).toUTF8.toList

/-- Binds a copy to this Luna, backup, version and user. -/
def keyAad (lunaId protection : String) (version : ℤ) (user : String) : Bytes :=
  canonical [("luna_id", lunaId.toUTF8.toList), ("protection_id", protection.toUTF8.toList),
    ("version", versionText version), ("user_id", user.toUTF8.toList)]

def keyCopyMessage (aad sealed : Bytes) : Bytes := canonical [("aad", aad), ("sealed", sealed)]

def recipientsMessage (lunaId protection : String) (version : ℤ) (users : List String) : Bytes :=
  canonical [("luna_id", lunaId.toUTF8.toList), ("protection_id", protection.toUTF8.toList),
    ("version", versionText version), ("users", j.ofNames users)]

/-- One key copy: the key and the dedup key sealed to `reader`, then signed by Luna. -/
def sealKeyCopy (seed : Bytes32) (rand : Bytes) (reader : SealPublic) (aad key dedupKey : Bytes) :
    Except String Bytes :=
  if key.length ≠ 32 ∨ dedupKey.length ≠ 32 then
    .error "The backup key is damaged and cannot be shared."
  else do
    let sealed ← c.sealTo rand reader aad (key ++ dedupKey)
    return sealed ++ (c.sign seed (signedBytes "key-copy" (keyCopyMessage aad sealed))).val

/-- Seal and store a copy for each recipient, one after the other. -/
def publishCopies (id : Identity) (protection : String) (key : BackupKey)
    (userPub : String → Option SealPublic) : List String → Job Unit
  | [] => return ()
  | user :: users => do
    match userPub user with
    | none => .fail (.error s!"User {user} has not set a recovery phrase yet.")
    | some reader =>
      let rand ← Prog.look .draw fun i _ => i.rand 0
      let copy ← orError (sealKeyCopy c id.seed rand reader
        (keyAad id.lunaId protection key.version user) key.key key.dedupKey)
      putRecord (.key protection key.version user) (.keyCopy copy)
      publishCopies id protection key userPub users

/-- The copies, and then the signed list of recipients. -/
def publishKey (id : Identity) (protection : String) (key : BackupKey) (recipients : List String)
    (userPub : String → Option SealPublic) : Job Unit := do
  if key.key.length ≠ 32 ∨ key.dedupKey.length ≠ 32 then
    .fail (.error "The backup key is damaged and cannot be shared.")
  else
    publishCopies c id protection key userPub recipients
    putRecord (.recipients protection key.version) (.recipients recipients
      (c.sign id.seed (signedBytes "recipients"
        (recipientsMessage j id.lunaId protection key.version recipients))))

/-- Open a stored copy: the signature is checked first. Returns the key and the dedup key. -/
def openKey (copy : Bytes) (secret : SealSecret) (luna : SigPublic) (lunaId protection : String)
    (version : ℤ) (user : String) : Except String (Bytes32 × Bytes32) :=
  let aad := keyAad lunaId protection version user
  let sealed := copy.take (copy.length - sigLen)
  if copy.length ≤ sigLen then .error "This backup key copy is damaged."
  else
    match toFixed sigLen (copy.drop (copy.length - sigLen)) with
    | none => .error "This backup key copy is damaged."
    | some signature =>
      if c.verifySig luna (signedBytes "key-copy" (keyCopyMessage aad sealed)) signature then
        match c.openCopy secret aad sealed with
        | none => .error
            "This sealed copy could not be opened. It was changed, or it was sealed to a different key."
        | some plain =>
          match toFixed 32 (plain.take 32), toFixed 32 (plain.drop 32) with
          | some key, some dedup => .ok (key, dedup)
          | _, _ => .error "This backup key copy is damaged."
      else .error "This backup key copy was not made by this Luna. It may have been changed."

/-- The listed users, if the signature is valid for this Luna, backup and version. -/
def verifyRecipients (record : Record) (luna : SigPublic) (lunaId protection : String) (version : ℤ) :
    Option (List String) :=
  match record with
  | .recipients users signature =>
    if c.verifySig luna (signedBytes "recipients" (recipientsMessage j lunaId protection version users))
        signature then some users
    else none
  | _ => none

/-! ### Re-seals -/

/-- Every backup and version whose saved reader list names the user. A backup that is known to be
deleted does not count. -/
def readerVersions (db : Db) (user : String) : List (String × ℤ) :=
  ((db.readers.select fun k readers =>
      ¬ ((db.protections.get? k.1).isNone ∧ k.1 ∈ db.deleted) ∧ user ∈ readerIds readers).map
    Prod.fst).insertionSort fun a b => a.1 < b.1 ∨ (a.1 = b.1 ∧ a.2 ≤ b.2)

/-- Swap the user's sealing key in every saved reader list that names them. -/
def replaceReader (db : Db) (user : String) (sealPublic : Bytes) : Db :=
  { db with readers := db.readers.update fun _ readers =>
      readers.map fun r => if r.1 = user then (r.1, sealPublic) else r }

/-- The pending job of a user holds the sealing key it is for. -/
def queueReseal (db : Db) (user : String) : Except String Db :=
  match db.userKeys.get? user with
  | none => .error s!"User {user} has no recovery phrase yet."
  | some keys => .ok { db with reseal := db.reseal.put user keys.sealPublic }

/-- The part of the phrase change that concerns the keys, in one transaction. A first phrase has nothing
to re-seal; an exposed one asks for new key versions. -/
def setPhrase (user : String) (keys : UserKeys) (rotate : List String) : Job Unit :=
  transact (.phrase user) fun db =>
    let first := (db.userKeys.get? user).isNone
    let db := { db with userKeys := db.userKeys.put user keys }
    if first then .ok db
    else
      let db := replaceReader db user keys.sealPublic
      queueReseal { db with rotate := db.rotate ∪ rotate.toFinset } user

structure ResealReport where
  user : String
  done : Bool
  copies : ℕ
  missing : List (String × ℤ)
  busy : List String

/-- Every user's keys have the right length. -/
def listedUsers : List (String × UserKeys) → Except String Unit
  | [] => .ok ()
  | (user, keys) :: rest =>
    if keys.sealPublic.length ≠ sealPublicLen ∨ keys.authPublic.length ≠ sigPublicLen then
      .error s!"The recovery key for user {user} is damaged."
    else listedUsers rest

/-- Every user has a recovery copy, and no two share a sealing key. -/
def distinctUsers (seen : List Bytes) : List (String × UserKeys) → Except String Unit
  | [] => .ok ()
  | (user, keys) :: rest =>
    if keys.selfSealed = [] then .error s!"The recovery copy for user {user} is empty."
    else if keys.sealPublic ∈ seen then .error "Two users share the same recovery key."
    else distinctUsers (keys.sealPublic :: seen) rest

/-- The signed list of every user's recovery keys. -/
def userListRecord (id : Identity) (db : Db) : Except String Record := do
  let users := db.userKeys.rows
  listedUsers users
  distinctUsers [] users
  return .userList users (c.sign id.seed (signedBytes "users"
    (canonical [("luna_id", id.lunaId.toUTF8.toList), ("users", j.ofNames (users.map Prod.fst))])))

/-- What a re-seal writes: the copies by name, the user list, and the pending value it read. -/
structure Reseal where
  copies : List (RecordName × Bytes)
  list : Record
  pending : Bytes

/-- The copies of the versions whose key is there, each sealed with its own random bytes; the others are
missing. -/
def sealCopies (db : Db) (id : Identity) (user : String) (reader : SealPublic) (rand : ℕ → Bytes) :
    List (String × ℤ) → Except String (List (RecordName × Bytes) × List (String × ℤ))
  | [] => .ok ([], [])
  | (backup, version) :: rest => do
    match (db.listBackupKeys backup).find? fun k => k.version = version with
    | none =>
      let (copies, missing) ← sealCopies db id user reader (fun n => rand (n + 1)) rest
      return (copies, (backup, version) :: missing)
    | some key =>
      let copy ← sealKeyCopy c id.seed (rand 0) reader (keyAad id.lunaId backup version user)
        key.key key.dedupKey
      let (copies, missing) ← sealCopies db id user reader (fun n => rand (n + 1)) rest
      return ((.key backup version user, copy) :: copies, missing)

/-- The locked read of a re-seal: nothing to do, versions without a key, or the records to write. -/
def readReseal (db : Db) (user : String) (rand : ℕ → Bytes) :
    Except String (Option (List (String × ℤ) ⊕ Reseal)) := do
  match db.reseal.get? user with
  | none => return none
  | some pending =>
    let some keys := db.userKeys.get? user | throw s!"User {user} has no recovery phrase yet."
    let some reader := toFixed sealPublicLen keys.sealPublic
      | throw s!"The recovery key for user {user} is damaged."
    let some id := db.identity | throw "Luna's cloud identity is missing."
    let (copies, missing) ← sealCopies c db id user reader rand (readerVersions db user)
    if missing ≠ [] then return some (.inl missing)
    let list ← userListRecord c j id db
    return some (.inr ⟨copies, list, pending⟩)

def putCopies : List (RecordName × Bytes) → Job Unit
  | [] => return ()
  | (name, copy) :: rest => do
    putRecord name (.keyCopy copy)
    putCopies rest

/-- The re-seal itself. The job is cleared only if its value is still the one that was read. -/
def resealUserLocked (user : String) : Job ResealReport := do
  let found ← Prog.tryAct (.sealCopies user) fun i s =>
    (match readReseal c j s.db user i.rand with
      | .ok r => .ok r
      | .error e => .error (.error e), s)
  match found with
  | none => return ⟨user, true, 0, [], []⟩
  | some (.inl missing) => return ⟨user, false, 0, missing, []⟩
  | some (.inr r) =>
    putCopies r.copies
    putRecord .userList r.list
    write (.clearJob user) fun db =>
      if db.reseal.get? user = some r.pending then { db with reseal := db.reseal.erase user } else db
    return ⟨user, true, r.copies.length, [], []⟩

/-- Try the drive hold and then the slot of each backup. Returns those taken and those that were busy. -/
def takeSlots : List String → Job (List String × List String)
  | [] => return ([], [])
  | backup :: rest => do
    let took ← Prog.act (.takeSlot backup) fun i s =>
      if !i.hold ∨ backup ∈ s.slots then (false, s)
      else (true, { s with slots := insert backup s.slots })
    let (slots, busy) ← takeSlots rest
    return if took then (backup :: slots, busy) else (slots, backup :: busy)

/-- The re-seal for a caller that holds the slot of `held`. Every other backup the user is on is locked
for the whole of it. -/
def resealUserHolding (user : String) (held : Option String) : Job ResealReport := do
  let backups ← read (.readJob user) fun db =>
    if (db.reseal.get? user).isNone then none
    else some (((readerVersions db user).map Prod.fst).dedup.filter fun b => some b ≠ held)
  match backups with
  | none => return ⟨user, true, 0, [], []⟩
  | some backups =>
    let (slots, busy) ← takeSlots backups
    if busy ≠ [] then
      dropSlots slots
      return ⟨user, false, 0, [], busy⟩
    else
      let report ← (resealUserLocked c j user).attempt
      dropSlots slots
      Prog.ofExcept report

/-- Every pending re-seal in turn. A failure for one user does not stop the others. -/
def resealEach (held : Option String) : List String → Job Unit
  | [] => return ()
  | user :: users => do
    let _ ← ((resealUserHolding c j user held).attempt : Job (Except Fault ResealReport))
    resealEach held users

def resealPendingHolding (held : Option String) : Job Unit := do
  let users ← read .listResealers fun db => db.reseal.keys
  resealEach c j held users

/-! ### What the sections of the parts change -/

section Only

variable {rel : Label → State → State → Prop}

theorem only_takeSlots (h : ∀ backup (s : State) slots, rel (.takeSlot backup) s { s with slots := slots })
    (backups : List String) : (takeSlots backups).Only rel := by
  induction backups with
  | nil => trivial
  | cons backup backups ih =>
    refine Prog.Only.bind (Prog.only_act fun i s => ?_) fun _ => ih.bind fun _ => trivial
    split
    · exact h backup s s.slots
    · exact h backup s _

end Only

end LibreServ.Cloud
