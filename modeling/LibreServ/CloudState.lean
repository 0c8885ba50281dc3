import LibreServ.CloudFormat
import LibreServ.SectionsPool

/-! The state of the cloud backups: the tables of `db.rs` that they use, the objects and records in the
cloud store (`store.rs`), and the run slots. Ids that the database keeps as hex text are kept as bytes,
record names are kept in their parts, and texts that are only written and read back as JSON are kept as
the values. The functions of `db.rs` are functions on the tables; a transaction that fails leaves them as
they were. -/

namespace LibreServ.Cloud

open Sections Except

variable {l : Label} {name : RecordName} {record : Record} {u : Unit}

/-- A snapshot or run id: sixteen random bytes. -/
abbrev Id := Bytes

/-! ### Tables -/

inductive PackState where
  | pending
  | live
  | marked
  | deleting
  deriving DecidableEq

structure PackRow where
  scope : Bytes
  state : PackState
  runId : Id
  size : ℕ
  markedAt : ℤ
  createdAt : ℤ
  deriving DecidableEq

/-- Where a chunk is stored: a row of `cloud_chunks`, less its key. -/
structure ChunkPlace where
  pack : Bytes32
  offset : ℕ
  len : ℕ
  deriving DecidableEq

structure Snapshot where
  protectionId : String
  createdAt : ℤ
  keyVersion : ℤ
  treePackId : Bytes32
  record : SignedRecord
  deriving DecidableEq

structure RunRow where
  protectionId : String
  scope : Bytes
  startedAt : ℤ
  endedAt : ℤ
  deriving DecidableEq

structure BackupKey where
  version : ℤ
  key : Bytes
  dedupKey : Bytes
  createdAt : ℤ
  deriving DecidableEq

structure AccessList where
  users : List String
  admins : Bool

def AccessList.allows (a : AccessList) (user : String) (isAdmin : Bool) : Bool :=
  (a.admins && isAdmin) || a.users.contains user

/-- A row of `protections` with the access list that `access_list::for_row` gives for it. -/
structure Protection where
  sourceDrive : String
  sourcePath : String
  createdBy : String
  privateOwner : String
  access : AccessList

structure User where
  admin : Bool
  username : String
  displayName : String

structure UserKeys where
  sealPublic : Bytes
  authPublic : Bytes
  selfSealed : Bytes
  deriving DecidableEq

/-- The database. The last fields are rows of `meta`: the readers saved for each key version, the marks
for rotation, the pending re-seals, the backups that were deleted, the rewritten records not yet sent,
and the counters of the key move. -/
structure Db where
  packs : Table Bytes32 PackRow
  chunks : Table (Bytes × Bytes32) ChunkPlace
  snapshots : Table Id Snapshot
  links : Finset (Id × Bytes32)
  runs : Table Id RunRow
  backupKeys : Table (String × ℤ) BackupKey
  protections : Table String Protection
  users : Table String User
  userKeys : Table String UserKeys
  identity : Option Identity
  privateTrees : Table Id String
  readers : Table (String × ℤ) (List (String × Bytes))
  rotate : Finset String
  reseal : Table String Bytes
  deleted : Finset String
  resync : Table (String × Id) Id
  moved : Table String (ℤ × ℕ)
  paused : Finset String

def Db.empty : Db :=
  { packs := .empty, chunks := .empty, snapshots := .empty, links := ∅, runs := .empty, backupKeys := .empty,
    protections := .empty, users := .empty, userKeys := .empty, identity := none, privateTrees := .empty,
    readers := .empty, rotate := ∅, reseal := .empty, deleted := ∅, resync := .empty, moved := .empty,
    paused := ∅ }

/-! ### The store -/

inductive RecordName where
  | snapshot (id : Id)
  | psnapshot (scope : String) (id : Id)
  | key (protection : String) (version : ℤ) (user : String)
  | recipients (protection : String) (version : ℤ)
  | userList
  deriving DecidableEq

inductive Record where
  | snapshot (signed : SignedRecord)
  | keyCopy (bytes : Bytes)
  | recipients (users : List String) (signature : SigBytes)
  | userList (users : List (String × UserKeys)) (signature : SigBytes)
  deriving DecidableEq

structure Store where
  packs : Table Bytes32 Bytes
  records : Table RecordName Record

inductive StoreError where
  | full
  | notFound
  | unavailable (message : String)
  | rejected (message : String)
  deriving DecidableEq

def StoreError.text : StoreError → String
  | .full => "Your cloud storage is full."
  | .notFound => "That item is not in your cloud storage."
  | .unavailable message => message
  | .rejected message => message

structure State where
  db : Db
  store : Store
  slots : Finset String

/-! ### Jobs -/

/-- How a job stops short: with a message, or by a panic. -/
inductive Fault where
  | error (message : String)
  | panic
  deriving DecidableEq

/-- What the outside decides at a section: the outcome of a store call, whether a drive hold is free, and
what the random generator gives. -/
structure Input where
  store : Option StoreError
  hold : Bool
  id : Id
  key : ℕ → Bytes32
  nonce : ℕ → Fixed nonceLen
  rand : ℕ → Bytes

/-- The store answers, the hold is free, and what is drawn is told by one byte. -/
def Input.drawn (b : UInt8) : Input :=
  ⟨none, true, [b], fun k => Fixed.fill 32 (b + k.toUInt8), fun k => Fixed.fill nonceLen (b + k.toUInt8),
    fun _ => []⟩

inductive Label where
  -- store calls
  | putPack (id : Bytes32)
  | getPack (id : Bytes32)
  | deletePack (id : Bytes32)
  | putRecord (name : RecordName)
  | deleteRecord (name : RecordName)
  -- slots
  | takeSlot (protection : String)
  | dropSlots (protections : List String)
  -- runs
  | draw
  | drawSnapshot
  | lastCopy (protection : String)
  | prepare (protection : String)
  | findChunk (scope : Bytes) (id : Bytes32)
  | insertPack (id : Bytes32)
  | insertChunks (id : Bytes32)
  | commitSnapshot (packs : List Bytes32)
  | startRun
  | endRun (id : Id)
  -- re-seals
  | listResealers
  | readJob (user : String)
  | sealCopies (user : String)
  | clearJob (user : String)
  | phrase (user : String)
  -- the key move
  | listResync (protection : String)
  | readRecord (id : Id)
  | clearResync (protection : String) (id : Id)
  | nextWork (protection : String)
  | readRows (pack : Bytes32)
  | readKeys (protection : String)
  | placeChunks (scope : Bytes) (ids : List Bytes32)
  | forgetUnsent (id : Bytes32)
  | markUnused (id : Bytes32)
  | pause (protection : String)
  | commitMove (old new : Bytes32)
  | commitRewrite (snapshot : Id) (tree : Bytes32) (links : List Bytes32)
  -- retention
  | listSnapshots (protection : String)
  | recordRef (id : Id)
  | deleteSnapshot (id : Id)
  | markUnusedPacks (scope : Bytes)
  | uploadPending
  | listDeletable (scope : Bytes)
  | claim (id : Bytes32) (scope : Bytes) (now : ℤ)
  | release (id : Bytes32)
  | deleteRow (id : Bytes32)
  deriving DecidableEq

abbrev Job := Prog Label Input State Fault

def orError {α : Type} (x : Except String α) : Job α :=
  match x with
  | .ok a => return a
  | .error e => .fail (.error e)

def orPanic {α : Type} (x : Option α) : Job α :=
  match x with
  | some a => return a
  | none => .fail .panic

/-- A section that reads the database. -/
def read {α : Type} (l : Label) (f : Db → α) : Job α := Prog.look l fun _ s => f s.db

/-- A section that writes the database. -/
def write (l : Label) (f : Db → Db) : Job Unit := Prog.act l fun _ s => ((), { s with db := f s.db })

/-- A section that writes the database in a transaction. -/
def transact (l : Label) (f : Db → Except String Db) : Job Unit :=
  Prog.tryAct l fun _ s =>
    match f s.db with
    | .ok db => (.ok (), { s with db := db })
    | .error e => (.error (.error e), s)

def putPack (id : Bytes32) (bytes : Bytes) : Job (Except StoreError Unit) :=
  Prog.act (.putPack id) fun i s =>
    match i.store with
    | some e => (.error e, s)
    | none => (.ok (), { s with store.packs := s.store.packs.put id bytes })

def getPack (id : Bytes32) : Job Bytes :=
  Prog.tryAct (.getPack id) fun i s =>
    match i.store, s.store.packs.get? id with
    | some e, _ => (.error (.error e.text), s)
    | none, some bytes => (.ok bytes, s)
    | none, none => (.error (.error StoreError.notFound.text), s)

def deletePack (id : Bytes32) : Job (Except StoreError Unit) :=
  Prog.act (.deletePack id) fun i s =>
    match i.store, s.store.packs.get? id with
    | some e, _ => (.error e, s)
    | none, some _ => (.ok (), { s with store.packs := s.store.packs.erase id })
    | none, none => (.error .notFound, s)

def putRecord (name : RecordName) (record : Record) : Job Unit :=
  Prog.tryAct (.putRecord name) fun i s =>
    match i.store with
    | some e => (.error (.error e.text), s)
    | none => (.ok (), { s with store.records := s.store.records.put name record })

def deleteRecord (name : RecordName) : Job (Except StoreError Unit) :=
  Prog.act (.deleteRecord name) fun i s =>
    match i.store, s.store.records.get? name with
    | some e, _ => (.error e, s)
    | none, some _ => (.ok (), { s with store.records := s.store.records.erase name })
    | none, none => (.error .notFound, s)

/-- `RunSlot::take`. -/
def takeSlot (protection : String) : Job Bool :=
  Prog.act (.takeSlot protection) fun _ s =>
    if protection ∈ s.slots then (false, s)
    else (true, { s with slots := insert protection s.slots })

def dropSlots (protections : List String) : Job Unit :=
  Prog.act (.dropSlots protections) fun _ s => ((), { s with slots := s.slots \ protections.toFinset })

/-! ### Runs of the parts -/

/-- A `mapM` that succeeds succeeds at every place. -/
theorem forall₂_of_mapM {α β ε : Type} {f : α → Except ε β} {as : List α} {bs : List β}
    (h : as.mapM f = .ok bs) : List.Forall₂ (fun a b => f a = .ok b) as bs := by
  induction as generalizing bs with
  | nil =>
    obtain rfl := ok.inj h
    exact List.Forall₂.nil
  | cons a as ih =>
    rw [List.mapM_cons] at h
    cases ha : f a with
    | error e => simp [ha, bind, Except.bind] at h
    | ok b =>
      cases has : as.mapM f with
      | error e => simp [ha, has, bind, Except.bind] at h
      | ok bs' =>
        rw [ha, has] at h
        obtain rfl := ok.inj h
        exact List.Forall₂.cons ha (ih has)

theorem exists_of_forall₂ {α β : Type} {R : α → β → Prop} {as : List α} {bs : List β}
    (h : List.Forall₂ R as bs) {b : β} (hb : b ∈ bs) : ∃ a ∈ as, R a b := by
  induction h with
  | nil => cases hb
  | cons hab _ ih =>
    rcases List.mem_cons.mp hb with rfl | hb
    · exact ⟨_, List.mem_cons_self, hab⟩
    · obtain ⟨a, ha, hR⟩ := ih hb
      exact ⟨a, List.mem_cons_of_mem _ ha, hR⟩

variable {α : Type} {s t : State} {f : Db → α}

theorem runs_orError {x : Except String α} {a : α} :
    (orError x).Runs s (.ok a) t ↔ x = .ok a ∧ t = s := by
  cases x with
  | ok b =>
    exact and_congr_left fun _ =>
      ⟨fun h => congrArg Except.ok (ok.inj h).symm, fun h => congrArg Except.ok (ok.inj h).symm⟩
  | error e => exact ⟨fun h => (nomatch h.1), fun h => (nomatch h.1)⟩

theorem runs_orPanic {x : Option α} {a : α} :
    (orPanic x).Runs s (.ok a) t ↔ x = some a ∧ t = s := by
  cases x with
  | some b =>
    exact and_congr_left fun _ =>
      ⟨fun h => congrArg some (ok.inj h).symm, fun h => congrArg Except.ok (Option.some.inj h).symm⟩
  | none => exact ⟨fun h => (nomatch h.1), fun h => (nomatch h.1)⟩

theorem runs_read {a : α} (h : (read l f).Runs s (.ok a) t) :
    a = f s.db ∧ t = s := by
  obtain ⟨i, ha, ht⟩ := h
  exact ⟨ok.inj ha, ht⟩

theorem runs_write {f : Db → Db} (h : (write l f).Runs s (.ok u) t) :
    t = { s with db := f s.db } := by
  obtain ⟨i, -, ht⟩ := h
  exact ht

theorem runs_transact {f : Db → Except String Db}
    (h : (transact l f).Runs s (.ok u) t) : ∃ db, f s.db = .ok db ∧ t = { s with db := db } := by
  obtain ⟨i, hi⟩ := Prog.runs_tryAct.mp h
  cases hf : f s.db with
  | error e => simp [hf] at hi
  | ok db =>
    rw [hf] at hi
    exact ⟨db, rfl, (Prod.mk.inj hi).2.symm⟩

theorem runs_putPack {id : Bytes32} {bytes : Bytes} (h : (putPack id bytes).Runs s (.ok (.ok u)) t) :
    t = { s with store.packs := s.store.packs.put id bytes } := by
  obtain ⟨i, hr, ht⟩ := Prog.runs_act.mp h
  cases hi : i.store with
  | some e => simp [hi] at hr
  | none => simpa [hi] using ht

theorem runs_getPack {id : Bytes32} {bytes : Bytes} (h : (getPack id).Runs s (.ok bytes) t) :
    s.store.packs.get? id = some bytes ∧ t = s := by
  obtain ⟨i, hi⟩ := Prog.runs_tryAct.mp h
  cases hs : i.store with
  | some e => simp [hs] at hi
  | none =>
    cases hp : s.store.packs.get? id with
    | none => simp [hs, hp] at hi
    | some bytes' =>
      simp only [hs, hp, Prod.mk.injEq, ok.injEq] at hi
      exact ⟨congrArg some hi.1, hi.2.symm⟩

theorem runs_putRecord_db
    (h : (putRecord name record).Runs s (.ok u) t) : t.db = s.db := by
  obtain ⟨i, hi⟩ := Prog.runs_tryAct.mp h
  cases hs : i.store with
  | some e => simp [hs] at hi
  | none =>
    simp only [hs, Prod.mk.injEq] at hi
    rw [← hi.2]

/-! ### The parts, cut or not -/

section Holds

variable {env : Label → Input → State → Prop} {cut : Label → State → Prop} {post : Except Fault α → State → Prop}

theorem holds_orError {x : Except String α} (hok : ∀ a, x = .ok a → post (.ok a) s)
    (herr : ∀ e, post (.error e) s) : (orError x).Holds env cut s post := by
  cases x with
  | ok a => exact hok a rfl
  | error e => exact herr _

theorem holds_read (hcut : cut l s) (h : post (.ok (f s.db)) s) :
    (read l f).Holds env cut s post := ⟨hcut, fun _ _ => h⟩

theorem holds_putRecord {post : Except Fault Unit → State → Prop} (hcut : cut (.putRecord name) s)
    (hok : post (.ok ()) { s with store.records := s.store.records.put name record })
    (herr : ∀ e, post (.error e) s) : (putRecord name record).Holds env cut s post := by
  refine Prog.holds_tryAct.mpr ⟨hcut, fun i _ => ?_⟩
  cases i.store with
  | none => exact hok
  | some e => exact herr _

end Holds

/-! ### What the sections of the parts change -/

section Only

variable {rel : Label → State → State → Prop}

theorem only_read (h : ∀ s, rel l s s) : (read l f).Only rel := Prog.only_look h

theorem only_write {f : Db → Db} (h : ∀ s : State, rel l s { s with db := f s.db }) :
    (write l f).Only rel := Prog.only_act fun _ s => h s

theorem only_putRecord (hrefl : ∀ s, rel (.putRecord name) s s) (h : ∀ s : State, rel (.putRecord name) s
      { s with store.records := s.store.records.put name record }) :
    (putRecord name record).Only rel := by
  refine Prog.only_tryAct fun i s => ?_
  cases i.store with
  | some e => exact hrefl s
  | none => exact h s

theorem only_orError (x : Except String α) : (orError x).Only rel := by
  cases x <;> trivial

theorem only_orPanic (x : Option α) : (orPanic x).Only rel := by
  cases x <;> trivial

theorem only_getPack {id : Bytes32} (h : ∀ s, rel (.getPack id) s s) : (getPack id).Only rel := by
  refine Prog.only_tryAct fun i s => ?_
  cases i.store with
  | some e => exact h s
  | none =>
    cases s.store.packs.get? id with
    | none | some bytes => exact h s

end Only

end LibreServ.Cloud
