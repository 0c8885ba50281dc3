import LibreServ.FileTree
import LibreServ.Paths

/-! Rooms for live editing, from `office/collab.rs`. The hub numbers the edits of a room, keeps the latest ones for
whoever joins, and sends each to everybody in the room. A room's channel is the list of its receivers here, each with
everything that was sent to it. -/

namespace LibreServ.Collab

open Files (Text)

variable {J : Type}

def maxRooms : Nat := 64

def maxPeersPerRoom : Nat := 32

def opBacklog : Nat := 256

def maxOpBytes : Nat := 256 * 1024

/-- A clock that counts nanoseconds. -/
def seconds (n : Nat) : Nat := n * 10 ^ 9

def idleEmpty : Nat := seconds 60

def saveLockTtl : Nat := seconds 300

structure PeerInfo where
  peerId : Nat
  userId : Text
  username : Text
  color : Text
  canWrite : Bool
  deriving DecidableEq

/-- What a client sends. -/
inductive ClientMsg (J : Type) where
  | hello (clientId : Text) (displayName : Option Text)
  | op (payload : J)
  | presence (cursor : Option J)
  | saved (size : Option Nat) (seq : Option Nat)
  | saveLock
  | saveEnd
  | ping

/-- An edit with its number. -/
structure Op (J : Type) where
  seq : Nat
  peerId : Nat
  payload : J
  deriving DecidableEq

inductive ServerEvent (J : Type) where
  | peerJoin (peer : PeerInfo)
  | peerLeave (peerId : Nat)
  | presence (peerId : Nat) (cursor : Option J)
  | op (op : Op J)
  | ack (seq : Nat)
  | saved (peerId : Nat) (size : Option Nat) (seq : Option Nat)
  | saveLock (granted : Bool)
  | error (message : String)
  | pong
  | evict (reason : String)
  | formResponse
  deriving DecidableEq

structure Welcome (J : Type) where
  peerId : Nat
  seq : Nat
  peers : List PeerInfo
  canWrite : Bool
  catchup : List (ServerEvent J)

/-- One end of the channel: what its owner was welcomed with and what has been sent since. -/
structure Receiver (J : Type) where
  welcome : Welcome J
  received : List (ServerEvent J)

structure Room (J : Type) where
  peers : Table Nat PeerInfo
  seq : Nat
  backlog : List (ServerEvent J)
  lastEvent : Nat
  saveHolder : Option (Nat × Nat)
  receivers : Table Nat (Receiver J)
  /-- Every edit of this room, for the record. -/
  accepted : List (Op J)
  /-- The largest coverage named so far, as far as there were edits then; for the record. -/
  covered : Nat

inductive JoinError where
  | tooManyRooms
  | roomFull
  deriving DecidableEq

namespace Room

def fresh (now : Nat) : Room J := ⟨Table.empty, 0, [], now, none, Table.empty, [], 0⟩

variable (room : Room J)

def send (e : ServerEvent J) : Room J :=
  { room with receivers := room.receivers.update fun _ rc => { rc with received := rc.received ++ [e] } }

/-- The first session of a user keeps the bare name; further ones get the lowest free number. -/
def sessionUsername (userId base : Text) : Text :=
  let users := (room.peers.rows.map Prod.snd).filter (·.userId = userId)
  if users = [] then base
  else
    FileTree.firstFree (fun name => users.any (·.username = name))
      (fun n => base ++ " (".toList ++ Nat.toDigits 10 n ++ [')']) users.length 2

def palette : List Text :=
  ["#5B8A72", "#6B7C9B", "#8B6B5B", "#6B8B5B", "#8B5B7C", "#5B7C8B", "#8B8B5B", "#7C5B8B"].map String.toList

def colorForPeer (peerId : Nat) : Text := palette.getD (peerId % palette.length) []

/-- The peer subscribes before its own arrival is announced. -/
def join (now peerId : Nat) (userId username : Text) (canWrite : Bool) : Welcome J × Room J :=
  let peer : PeerInfo :=
    ⟨peerId, userId, room.sessionUsername userId username, colorForPeer peerId, canWrite⟩
  let peers := room.peers.put peerId peer
  let welcome : Welcome J := ⟨peerId, room.seq, peers.rows.map Prod.snd, canWrite, room.backlog⟩
  let room := { room with peers := peers, lastEvent := now, receivers := room.receivers.put peerId ⟨welcome, []⟩ }
  (welcome, room.send (.peerJoin peer))

def releaseHolderPeer (peerId : Nat) : Room J :=
  if room.saveHolder.any fun holder => holder.1 = peerId then { room with saveHolder := none } else room

/-- The election goes by user: any session of the one who holds it. -/
def releaseHolderUser (userId : Text) : Room J :=
  match room.saveHolder with
  | none => room
  | some (holder, _) =>
    if (room.peers.get? holder).any fun peer => peer.userId = userId then { room with saveHolder := none } else room

def leave (now peerId : Nat) : Room J :=
  let room := { room with peers := room.peers.erase peerId }
  let room := { room.releaseHolderPeer peerId with lastEvent := now }
  room.send (.peerLeave peerId)

/-- The oldest edits leave when there are too many. -/
def pushBacklog (backlog : List (ServerEvent J)) (e : ServerEvent J) : List (ServerEvent J) :=
  (backlog ++ [e]).drop ((backlog ++ [e]).length - opBacklog)

def compactBacklog (coverage : Nat) : Room J :=
  let bound := min coverage room.seq
  { room with
    backlog := room.backlog.filter fun e =>
      match e with
      | .op o => bound < o.seq
      | _ => true
    covered := max room.covered bound }

def grantSaveLock (now peerId : Nat) (canWrite : Bool) : ServerEvent J × Room J :=
  if ¬ canWrite then (.saveLock false, room)
  else if room.saveHolder.any fun holder => holder.1 ≠ peerId && now - holder.2 < saveLockTtl then
    (.saveLock false, room)
  else (.saveLock true, { room with saveHolder := some (peerId, now) })

def readOnly : String := "You can read this file, but you do not have permission to edit it."

def tooLarge : String := "That edit is too large to share live. Save the file instead."

/-- `bytes` is the length of a payload's text. -/
def handle (bytes : J → Nat) (now peerId : Nat) (canWrite : Bool) (msg : ClientMsg J) :
    Option (ServerEvent J) × Room J :=
  let room := { room with lastEvent := now }
  match msg with
  | .hello _ _ => (none, room)
  | .ping => (some .pong, room)
  | .presence cursor => (none, room.send (.presence peerId cursor))
  | .op payload =>
    if ¬ canWrite then (some (.error readOnly), room)
    else if maxOpBytes < bytes payload then (some (.error tooLarge), room)
    else
      let o : Op J := ⟨room.seq + 1, peerId, payload⟩
      let room := { room with
        seq := room.seq + 1, backlog := pushBacklog room.backlog (.op o), accepted := room.accepted ++ [o] }
      (some (.ack room.seq), room.send (.op o))
  | .saved size seq =>
    if ¬ canWrite then (some (.error readOnly), room)
    else
      let room := match seq with
        | some seq => room.compactBacklog seq
        | none => room
      (none, (room.releaseHolderPeer peerId).send (.saved peerId size seq))
  | .saveLock =>
    let answer := room.grantSaveLock now peerId canWrite
    (some answer.1, answer.2)
  | .saveEnd => (none, room.releaseHolderPeer peerId)

def fileLanded (now : Nat) (userId : Text) (coverage : Option Nat) : Room J :=
  let room := match coverage with
    | some seq => room.compactBacklog seq
    | none => room
  { room.releaseHolderUser userId with lastEvent := now }

end Room

/-! ### The hub -/

structure Hub (J : Type) where
  rooms : Table Text (Room J)
  /-- The number the next peer gets. -/
  peerSeq : Nat

inductive Call (J : Type) where
  | join (key userId username : Text) (canWrite : Bool)
  | leave (key : Text) (peerId : Nat)
  | handle (key : Text) (peerId : Nat) (canWrite : Bool) (msg : ClientMsg J)
  | fileLanded (key userId : Text) (coverage : Option Nat)
  | evictIdle

inductive Reply (J : Type) where
  | joined (peerId : Nat) (welcome : Welcome J)
  | refused (e : JoinError)
  | answer (event : Option (ServerEvent J))
  | nothing

namespace Hub

def empty : Hub J := ⟨Table.empty, 1⟩

def sessionEnded : String := "This editing session ended. Close and open the file again."

variable (bytes : J → Nat) (h : Hub J)

def join (now : Nat) (key userId username : Text) (canWrite : Bool) : Reply J × Hub J :=
  if (h.rooms.get? key).isNone ∧ maxRooms ≤ h.rooms.rows.length then (.refused .tooManyRooms, h)
  else
    let room := (h.rooms.get? key).getD (Room.fresh now)
    if maxPeersPerRoom ≤ room.peers.rows.length then (.refused .roomFull, h)
    else
      let joined := room.join now h.peerSeq userId username canWrite
      (.joined h.peerSeq joined.1, ⟨h.rooms.put key joined.2, h.peerSeq + 1⟩)

def handle (now : Nat) (key : Text) (peerId : Nat) (canWrite : Bool) (msg : ClientMsg J) : Reply J × Hub J :=
  match h.rooms.get? key with
  | none => (.answer (some (.error sessionEnded)), h)
  | some room =>
    let answer := room.handle bytes now peerId canWrite msg
    (.answer answer.1, { h with rooms := h.rooms.put key answer.2 })

/-- A change to a room that is there. -/
def change (key : Text) (f : Room J → Room J) : Hub J :=
  match h.rooms.get? key with
  | none => h
  | some room => { h with rooms := h.rooms.put key (f room) }

/-- Rooms nobody is in go when nothing has happened in them for a while. -/
def evictIdle (now : Nat) : Hub J :=
  { h with rooms := h.rooms.keep fun _ room => !(room.peers.rows = [] && idleEmpty < now - room.lastEvent) }

def step (now : Nat) (c : Call J) : Reply J × Hub J :=
  match c with
  | .join key userId username canWrite => h.join now key userId username canWrite
  | .leave key peerId => (.nothing, h.change key fun room => room.leave now peerId)
  | .handle key peerId canWrite msg => h.handle bytes now key peerId canWrite msg
  | .fileLanded key userId coverage => (.nothing, h.change key fun room => room.fileLanded now userId coverage)
  | .evictIdle => (.nothing, h.evictIdle now)

/-- Calls one after the other, each at its time. -/
def run : List (Nat × Call J) → Hub J → Hub J
  | [], h => h
  | (now, c) :: rest, h => run rest (h.step bytes now c).2

end Hub

end LibreServ.Collab
