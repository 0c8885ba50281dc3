import LibreServ.Paths
import LibreServ.Table

/-! Office documents that are edited live, from `office/office_docs.rs`. A session keeps who is in the document, the
edits since the bundle on disk was written, the locked blocks and who may save. It never looks into an edit. -/

namespace LibreServ.Office

open Files (Text)

def maxDocSessions : Nat := 32

def maxParticipantsPerDoc : Nat := 32

def maxOpLogBytes : Nat := 8 * 1024 * 1024

/-- Instants count nanoseconds. -/
def seconds (n : Nat) : Nat := n * 10 ^ 9

def idleEmpty : Nat := seconds 300

def saveLockTtl : Nat := seconds 60

def saveElectionTtl : Nat := seconds 300

def claimTtl : Nat := seconds 60

/-- The two clocks a call reads: the monotonic one, and the wall clock in milliseconds. -/
structure Clock where
  instant : Nat
  ms : Int

/-- `a - b` of 64-bit integers. -/
def sub64 (a b : Int) : Int := Int.bmod (a - b) (2 ^ 64)

/-- Bytes of a text in UTF-8. -/
def byteLen (t : Text) : Nat := (t.map fun c => c.utf8Size).sum

structure OpRecord where
  idx : Int
  change : Text
  time : Int
  user : Text
  useridoriginal : Text
  deriving DecidableEq

structure Participant where
  /-- `idOriginal` with `indexUser` behind it. -/
  id : Text
  idOriginal : Text
  username : Text
  indexUser : Int
  view : Bool
  write : Bool
  deliveredIndex : Int
  deriving DecidableEq

/-- A block as it is read: the string under `guid`, the block itself if it is a string, and its JSON text. -/
structure Block where
  guid : Option Text
  str : Option Text
  json : Text
  deriving DecidableEq

def lockKey (block : Block) : Text :=
  match block.guid, block.str with
  | some guid, _ => guid
  | none, some s => s
  | none, none => block.json

structure BlockLock where
  time : Int
  user : Text
  block : Block
  deriving DecidableEq

/-- A lock that was given back, as the others are told. -/
structure Released where
  block : Block
  user : Text
  time : Int
  deriving DecidableEq

structure DocSession where
  driveId : Text
  path : Text
  participants : Table Nat Participant
  ops : List OpRecord
  baseIndex : Int
  changeIndex : Int
  opBytes : Nat
  locks : Table Text BlockLock
  saveHolder : Option (Nat × Nat)
  saveElection : Option (Nat × Nat)
  nextIndexUser : Int
  lastEvent : Nat
  resurrected : Bool
  pendingUntil : Option Nat

inductive HubError where
  | tooManySessions
  | sessionFull
  | unknownKey
  | forbidden
  | stale
  deriving DecidableEq

/-- What is sent to a socket. -/
inductive Frame where
  | authChanges (changes : List OpRecord)
  | auth (sessionId : Nat) (participants : List Participant) (locks : List (Text × BlockLock)) (indexUser : Int)
  | unauthorized
  | license
  | authRefused
  | error (description : String) (code : Nat)
  | documentOpen
  | documentMissing
  | saveChanges (changes : List OpRecord) (startIndex changesIndex : Int) (endSave : Bool) (locks : List Released)
  | unSaveLock (index time syncChangesIndex : Int)
  | savePartChanges (changesIndex syncChangesIndex : Int)
  | warning (code message : String)
  | getLock (locks : List (Text × BlockLock))
  | releaseLock (locks : List Released)
  | saveLock (saveLock : Bool)
  | lunaSaveLock (saveLock : Bool)
  | lunaSaved (user : Option (Text × Int))
  | connectState (participants : List Participant)
  | cursor (user : Option Text)
  | message (user : Option Text)
  | getUsers (participants : List Participant)
  deriving DecidableEq

/-- The `sessionId` of an `auth` message; `value none` is one that is no number. -/
inductive SessionId where
  | absent
  | null
  | value (sock : Option Nat)
  deriving DecidableEq

/-- The fields of an `auth` message that are the client's own. -/
structure AuthMsg where
  docid : Option Text
  jwt : Text
  sessionId : SessionId
  indexUser : Option Int
  mode : Option Text
  edit : Option Bool
  block : Option (List Block)
  lastOtherSaveTime : Option Int
  openCmd : Bool

namespace AuthMsg

variable (m : AuthMsg)

def isRestore : Bool :=
  match m.sessionId with
  | .value _ => true
  | _ => false

/-- The socket this one comes back from. -/
def rejoin (sock : Nat) : Option Nat :=
  match m.sessionId with
  | .value (some old) => if old = sock then none else some old
  | _ => none

def claimedIndex : Option Int :=
  match m.sessionId with
  | .absent => none
  | _ => m.indexUser.filter fun i => 0 < i

def view : Bool := m.mode = some "view".toList || m.edit = some false

end AuthMsg

structure SaveMsg where
  changes : List Text
  deleteIndex : Option Int
  startSaveChanges : Bool
  endSaveChanges : Bool
  releaseLocks : Bool

inductive UnlockType where
  | unLock
  | releaseLocks
  | unLockDocument
  deriving DecidableEq

structure UnlockMsg where
  type : UnlockType
  deleteIndex : Option Int
  /-- A block that stands alone is a list of one. -/
  block : Option (List Block)
  releaseLocks : Bool
  isSave : Bool

def opLogFullFrame : Frame :=
  .warning "session.ops.overflow"
    "This editing session has many unsaved changes. Save the file, then close and reopen it."

namespace DocSession

/-- A session as it is made. -/
def new (now : Clock) (driveId path : Text) : DocSession where
  driveId := driveId
  path := path
  participants := Table.empty
  ops := []
  baseIndex := 0
  changeIndex := 0
  opBytes := 0
  locks := Table.empty
  saveHolder := none
  saveElection := none
  nextIndexUser := 1
  lastEvent := now.instant
  resurrected := false
  pendingUntil := none

variable (s : DocSession)

/-- The edits above the bundle, or above what the client says it has. -/
def replayFrom (knownIndex : Option Int) : List OpRecord :=
  let floor := max (knownIndex.getD s.baseIndex) s.baseIndex
  s.ops.filter fun op => floor < op.idx

def participantsJson : List Participant := s.participants.rows.map Prod.snd

def touch (now : Clock) : DocSession := { s with lastEvent := now.instant }

/-- Another socket saves right now. -/
def heldByOther (now : Clock) (sock : Nat) : Bool :=
  s.saveHolder.any fun holder => holder.1 ≠ sock && now.instant - holder.2 ≤ saveLockTtl

def setOps (ops : List OpRecord) : DocSession :=
  { s with ops := ops, opBytes := (ops.map fun op => byteLen op.change).sum }

/-- `truncate_ops`: the client took back edits up to an earlier index. -/
def truncateOps (deleteIndex : Int) : DocSession :=
  if 0 < sub64 s.changeIndex deleteIndex then
    { s.setOps (s.ops.filter fun op => op.idx ≤ deleteIndex) with changeIndex := max deleteIndex s.baseIndex }
  else s

/-- `release_participant_locks`. -/
def releaseParticipantLocks (now : Clock) (user : Text) : List Released × DocSession :=
  ((s.locks.select fun _ l => l.user = user).map fun r => ⟨r.2.block, r.2.user, now.ms⟩,
    { s with locks := s.locks.keep fun _ l => l.user ≠ user })

/-! ### Joining -/

structure Joined where
  participant : Participant
  replies : List Frame
  peers : Option Frame

/-- The entry of a socket whose client came back on another one: its locks go, a save in flight moves. -/
def replaceSock (now : Clock) (sock old : Nat) : DocSession :=
  match s.participants.get? old with
  | none => s
  | some p =>
    { s with
      participants := s.participants.erase old
      locks := s.locks.keep fun _ l => l.user ≠ p.id
      saveHolder := if s.saveHolder.any (fun h => h.1 = old) then none else s.saveHolder
      saveElection := if s.saveElection.any (fun h => h.1 = old) then some (sock, now.instant) else s.saveElection }

def indexFor (m : AuthMsg) : Int := m.claimedIndex.getD s.nextIndexUser

def newcomer (idOriginal username : Text) (m : AuthMsg) (canWrite : Bool) : Participant where
  id := idOriginal ++ (toString (s.indexFor m)).toList
  idOriginal := idOriginal
  username := username
  indexUser := s.indexFor m
  view := m.view
  write := canWrite
  deliveredIndex := s.changeIndex

def takeIndex (m : AuthMsg) : DocSession :=
  if m.claimedIndex = none then { s with nextIndexUser := s.nextIndexUser + 1 } else s

/-- The client has seen the newest edit of the others, as far as its time tells. -/
def restoreOk (id : Text) (m : AuthMsg) : Bool :=
  match s.ops.getLast? with
  | none => true
  | some op =>
    op.user = id ||
      match m.lastOtherSaveTime with
      | none => true
      | some t => (sub64 t op.time).tdiv 1000 = 0

/-- Blocks that are free are taken again; the flag says whether there was one. -/
def regrant (time : Int) (user : Text) : List Block → Table Text BlockLock → Bool × Table Text BlockLock
  | [], locks => (false, locks)
  | b :: rest, locks =>
    match locks.get? (lockKey b) with
    | some _ => regrant time user rest locks
    | none => (true, (regrant time user rest (locks.put (lockKey b) ⟨time, user, b⟩)).2)

/-- The participant is entered and answered. -/
def seat (sock : Nat) (p : Participant) (replay : Bool) (regranted : Bool) : Joined × DocSession :=
  let s := { s with participants := s.participants.put sock p }
  let changes := if replay && s.replayFrom none ≠ [] then [Frame.authChanges (s.replayFrom none)] else []
  (⟨p, changes ++ [.auth sock s.participantsJson s.locks.rows p.indexUser],
    if regranted then some (.getLock s.locks.rows) else none⟩, s)

/-- From the place where the socket's own earlier entry is gone. -/
def enter (now : Clock) (sock : Nat) (idOriginal username : Text) (m : AuthMsg) (canWrite : Bool) :
    Except HubError Joined × DocSession :=
  if maxParticipantsPerDoc ≤ s.participants.rows.length ∧ s.participants.get? sock = none then (.error .sessionFull, s)
  else
    let p := s.newcomer idOriginal username m canWrite
    let s := s.takeIndex m
    if m.isRestore ∧ ¬ p.view then
      if ¬ s.restoreOk p.id m then (.error .stale, s)
      else
        let granted := regrant now.ms p.id (m.block.getD []) s.locks
        let joined := { s with locks := granted.2 }.seat sock p false granted.1
        (.ok joined.1, joined.2)
    else
      let joined := s.seat sock p (!m.isRestore && !p.view) false
      (.ok joined.1, joined.2)

def auth (now : Clock) (sock : Nat) (idOriginal username : Text) (m : AuthMsg) (canWrite : Bool) :
    Except HubError Joined × DocSession :=
  let s := s.touch now
  match m.rejoin sock with
  | none =>
    if s.resurrected ∧ m.isRestore then (.error .stale, s) else s.enter now sock idOriginal username m canWrite
  | some old =>
    match s.participants.get? old with
    | none =>
      if s.resurrected ∧ m.isRestore then (.error .stale, s) else s.enter now sock idOriginal username m canWrite
    | some p =>
      if p.idOriginal ≠ idOriginal then (.error .forbidden, s)
      else (s.replaceSock now sock old).enter now sock idOriginal username m canWrite

/-! ### Edits -/

/-- New edits, numbered from the one after `start`. -/
def records (time : Int) (p : Participant) : Int → List Text → List OpRecord
  | _, [] => []
  | start, change :: rest => ⟨start + 1, change, time, p.id, p.idOriginal⟩ :: records time p (start + 1) rest

def appendOps (time : Int) (p : Participant) (changes : List Text) : DocSession :=
  { s with
    ops := s.ops ++ records time p s.changeIndex changes
    changeIndex := s.changeIndex + changes.length
    opBytes := s.opBytes + (changes.map byteLen).sum }

/-- Everybody in the document has been sent the edits so far. -/
def markDelivered : DocSession :=
  { s with participants := s.participants.update fun _ p => { p with deliveredIndex := s.changeIndex } }

/-- `deleteIndex` counts on the first part of a save only. -/
def undone (m : SaveMsg) : DocSession :=
  if m.startSaveChanges ∧ m.deleteIndex.getD (-1) ≠ -1 then s.truncateOps (m.deleteIndex.getD (-1)) else s

/-- The last part of a save gives the saver's locks back if it says so. -/
def saveReleases (now : Clock) (p : Participant) (m : SaveMsg) : List Released × DocSession :=
  if m.endSaveChanges ∧ m.releaseLocks then s.releaseParticipantLocks now p.id else ([], s)

/-- The part of `save_changes` behind its checks. -/
def flush (now : Clock) (sock : Nat) (p : Participant) (m : SaveMsg) : (List Frame × Option Frame) × DocSession :=
  let s := { s with saveHolder := some (sock, now.instant) }.undone m
  let startIndex := s.changeIndex
  let new := records now.ms p startIndex m.changes
  let released := (s.appendOps now.ms p m.changes).saveReleases now p m
  let s := released.2.markDelivered
  let changesIndex := if m.deleteIndex.getD (-1) = -1 ∧ m.startSaveChanges then startIndex else -1
  let reply : Frame :=
    if m.endSaveChanges then .unSaveLock changesIndex now.ms s.changeIndex else .savePartChanges changesIndex s.changeIndex
  let s := if m.endSaveChanges then { s with saveHolder := none } else s
  let full := if maxOpLogBytes < s.opBytes then [opLogFullFrame] else []
  ((reply :: full, some (.saveChanges new startIndex s.changeIndex m.endSaveChanges released.1)), s)

def saveChanges (now : Clock) (sock : Nat) (m : SaveMsg) : Except HubError (List Frame × Option Frame) × DocSession :=
  let s := s.touch now
  match s.participants.get? sock with
  | none => (.error .unknownKey, s)
  | some p =>
    if ¬ p.write then (.error .forbidden, s)
    else if m.changes ≠ [] ∧ maxOpLogBytes < s.opBytes then (.ok ([opLogFullFrame], none), s)
    else if s.heldByOther now sock then (.error .forbidden, s)
    else
      let done := s.flush now sock p m
      (.ok done.1, done.2)

/-! ### Locks -/

/-- A block somebody else holds stays as it is. -/
def grantBlocks (time : Int) (user : Text) (blocks : List Block) (locks : Table Text BlockLock) :
    Table Text BlockLock :=
  blocks.foldl
    (fun locks b =>
      if (locks.get? (lockKey b)).any fun l => l.user ≠ user then locks else locks.put (lockKey b) ⟨time, user, b⟩)
    locks

def getLock (now : Clock) (sock : Nat) (block : Option (List Block)) : Except HubError (Frame × Frame) × DocSession :=
  let s := s.touch now
  match s.participants.get? sock with
  | none => (.error .unknownKey, s)
  | some p =>
    if ¬ p.write then (.error .forbidden, s)
    else
      let s := { s with locks := grantBlocks now.ms p.id (block.getD []) s.locks }
      (.ok (.getLock s.locks.rows, .getLock s.locks.rows), s)

/-- The listed blocks that are the participant's own. -/
def releaseBlocks (time : Int) (user : Text) : List Block → Table Text BlockLock → List Released × Table Text BlockLock
  | [], locks => ([], locks)
  | b :: rest, locks =>
    if (locks.get? (lockKey b)).any fun l => l.user = user then
      let done := releaseBlocks time user rest (locks.erase (lockKey b))
      (⟨b, user, time⟩ :: done.1, done.2)
    else releaseBlocks time user rest locks

/-- An undo that goes back behind the last save. -/
def rewound (m : UnlockMsg) : DocSession :=
  match m.deleteIndex with
  | some i => if i ≠ -1 then s.truncateOps i else s
  | none => s

/-- The listed blocks, or all of the participant's where the message asks for that. -/
def givenBack (now : Clock) (p : Participant) (m : UnlockMsg) : List Released × DocSession :=
  match m.block with
  | some blocks =>
    let done := releaseBlocks now.ms p.id blocks s.locks
    (done.1, { s with locks := done.2 })
  | none =>
    if m.releaseLocks ∨ m.type = UnlockType.unLock ∨ m.type = UnlockType.releaseLocks then
      s.releaseParticipantLocks now p.id
    else ([], s)

def unlock (now : Clock) (sock : Nat) (m : UnlockMsg) : Except HubError (List Frame × Option Frame) × DocSession :=
  let s := s.touch now
  match s.participants.get? sock with
  | none => (.error .unknownKey, s)
  | some p =>
    let released := (s.rewound m).givenBack now p m
    let s := released.2
    let frame : List Frame := if released.1 = [] then [] else [.releaseLock released.1]
    if m.isSave ∧ ¬ s.heldByOther now sock then
      (.ok (frame ++ [.unSaveLock (-1) (-1) (-1)], frame.head?), { s with saveHolder := none })
    else (.ok (frame, frame.head?), s)

/-! ### Saving -/

def mayWrite (sock : Nat) : Bool := (s.participants.get? sock).any fun p => p.write

def isSaveLock (now : Clock) (sock : Nat) : Frame × DocSession :=
  let s := s.touch now
  if ¬ s.mayWrite sock then (.saveLock true, s)
  else if s.heldByOther now sock then (.saveLock true, s)
  else (.saveLock false, { s with saveHolder := some (sock, now.instant) })

def unSaveLock (now : Clock) (sock : Nat) : Option Frame × DocSession :=
  let s := s.touch now
  if s.heldByOther now sock then (none, s) else (some (.unSaveLock (-1) (-1) (-1)), { s with saveHolder := none })

/-- Another socket, still here, was elected to save. -/
def electedOther (now : Clock) (sock : Nat) : Bool :=
  s.saveElection.any fun e =>
    e.1 ≠ sock && now.instant - e.2 ≤ saveElectionTtl && (s.participants.get? e.1).isSome

def lunaSaveLock (now : Clock) (sock : Nat) : Frame × DocSession :=
  let s := s.touch now
  if ¬ s.mayWrite sock then (.lunaSaveLock true, s)
  else if s.electedOther now sock then (.lunaSaveLock true, s)
  else (.lunaSaveLock false, { s with saveElection := some (sock, now.instant) })

def lunaSaveEnd (sock : Nat) : DocSession :=
  if s.saveElection.any fun e => e.1 = sock then { s with saveElection := none } else s

/-- Someone else's user was elected to save. -/
def electedOtherUser (now : Clock) (user : Text) : Bool :=
  s.saveElection.any fun e =>
    now.instant - e.2 ≤ saveElectionTtl && (s.participants.get? e.1).any fun p => p.idOriginal ≠ user

/-- The largest index a socket of the user was sent. -/
def deliveredTo (user : Text) : Int :=
  match (s.participantsJson.filter fun p => p.idOriginal = user).map Participant.deliveredIndex with
  | [] => s.baseIndex
  | d :: rest => rest.foldl max d

/-- A new `Editor.bin` is on disk. -/
def bundleRefreshed (now : Clock) (user : Text) (coverage : Option Int) : DocSession :=
  if s.electedOtherUser now user then s
  else
    let delivered := s.deliveredTo user
    let bound := match coverage with
      | some c => min c delivered
      | none => delivered
    let keepFrom := max s.baseIndex (min bound s.changeIndex)
    { s.setOps (s.ops.filter fun op => keepFrom < op.idx) with
      baseIndex := keepFrom, saveElection := none, lastEvent := now.instant }

def disconnect (now : Clock) (sock : Nat) : List Frame × DocSession :=
  let left := match s.participants.get? sock with
    | none => ([], s)
    | some p => { s with participants := s.participants.erase sock }.releaseParticipantLocks now p.id
  let s := left.2
  let s := { s with
    saveHolder := if s.saveHolder.any (fun h => h.1 = sock) then none else s.saveHolder
    saveElection := if s.saveElection.any (fun h => h.1 = sock) then none else s.saveElection
    lastEvent := now.instant }
  ((if left.1 = [] then [] else [.releaseLock left.1]) ++ [.connectState s.participantsJson], s)

/-! ### What joining can do -/

section Joining

variable {s : DocSession} {now : Clock} {sock : Nat} {idOriginal username : Text} {m : AuthMsg} {canWrite : Bool}

theorem takeIndex_ops : (s.takeIndex m).ops = s.ops := by
  unfold takeIndex
  split
  · rfl
  · rfl

theorem takeIndex_locks : (s.takeIndex m).locks = s.locks := by
  unfold takeIndex
  split
  · rfl
  · rfl

theorem restoreOk_takeIndex (id : Text) : (s.takeIndex m).restoreOk id m = s.restoreOk id m := by
  unfold restoreOk
  rw [takeIndex_ops]

/-- The session after the newcomer took its place. -/
def entered (s : DocSession) (sock : Nat) (m : AuthMsg) (p : Participant) (locks : Table Text BlockLock) : DocSession :=
  { s.takeIndex m with locks := locks, participants := (s.takeIndex m).participants.put sock p }

/-- The name the newcomer goes by. -/
def joinId (s : DocSession) (idOriginal : Text) (m : AuthMsg) : Text := idOriginal ++ (toString (s.indexFor m)).toList

/-- The client claims to come from before the room was made again. -/
def deadEra (s : DocSession) (sock : Nat) (m : AuthMsg) : Bool :=
  s.resurrected && ((m.rejoin sock).bind fun old => s.participants.get? old).isNone

theorem enter_cases : (∃ e, s.enter now sock idOriginal username m canWrite = (.error e, s)) ∨
      (∃ e, s.enter now sock idOriginal username m canWrite = (.error e, s.takeIndex m)) ∨
      ∃ joined locks, s.enter now sock idOriginal username m canWrite =
          (.ok joined, s.entered sock m (s.newcomer idOriginal username m canWrite) locks) ∧
        (locks = s.locks ∨ m.isRestore = true ∧ m.view = false ∧ s.restoreOk (s.joinId idOriginal m) m = true ∧
            locks = (regrant now.ms (s.joinId idOriginal m) (m.block.getD []) s.locks).2) := by
  unfold enter
  split
  · exact .inl ⟨_, rfl⟩
  simp only
  split
  · rename_i hrestore
    split
    · exact .inr (.inl ⟨_, rfl⟩)
    rename_i hok
    refine .inr (.inr ⟨_, _, rfl, .inr ⟨hrestore.1, Bool.not_eq_true _ ▸ hrestore.2, ?_, ?_⟩⟩)
    · rw [← restoreOk_takeIndex]
      exact not_not.mp hok
    · rw [takeIndex_locks]
      rfl
  · exact .inr (.inr ⟨_, _, rfl, .inl takeIndex_locks⟩)

theorem auth_cases : (∃ e, s.auth now sock idOriginal username m canWrite = (.error e, s.touch now)) ∨
      ((m.isRestore = true → s.deadEra sock m = false) ∧ ((m.rejoin sock).bind fun old => s.participants.get? old) = none ∧
        s.auth now sock idOriginal username m canWrite = (s.touch now).enter now sock idOriginal username m canWrite) ∨
      ∃ old p, m.rejoin sock = some old ∧ s.participants.get? old = some p ∧ p.idOriginal = idOriginal ∧
        s.auth now sock idOriginal username m canWrite =
          ((s.touch now).replaceSock now sock old).enter now sock idOriginal username m canWrite := by
  unfold auth deadEra
  simp only
  split
  · rename_i hrejoin
    split
    · exact .inl ⟨_, rfl⟩
    · rename_i hlive
      refine .inr (.inl ⟨fun hrestore => ?_, by rw [hrejoin]; rfl, rfl⟩)
      rw [Bool.and_eq_false_iff]
      exact .inl (Bool.eq_false_iff.mpr fun hres => hlive ⟨hres, hrestore⟩)
  · rename_i old hrejoin
    split
    · rename_i hgone
      split
      · exact .inl ⟨_, rfl⟩
      · rename_i hlive
        refine .inr (.inl ⟨fun hrestore => ?_, by rw [hrejoin]; exact hgone, rfl⟩)
        rw [Bool.and_eq_false_iff]
        exact .inl (Bool.eq_false_iff.mpr fun hres => hlive ⟨hres, hrestore⟩)
    · rename_i p hp
      split
      · exact .inl ⟨_, rfl⟩
      · rename_i huser
        exact .inr (.inr ⟨old, p, hrejoin, hp, not_not.mp huser, rfl⟩)

end Joining

end DocSession

end LibreServ.Office
