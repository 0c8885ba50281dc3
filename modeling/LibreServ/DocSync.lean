import LibreServ.CollabWire

/-! Text files that are edited together, from `collabDocSync.js` with the default adapter. A shared document is known by
the inserts it holds and those it has deleted; nobody types, so each insert is of the file's content, put in by a client
that seeded. Updates merge, whatever their order. Clients decide by themselves when to seed; timers fire when they like. -/

namespace LibreServ.DocSync

open Files (Text)

open Collab (Wire ServerEvent ClientMsg Welcome Frame)

/-- A document, or an update to one. -/
structure Doc where
  inserts : Finset Nat
  deletes : Finset Nat
  deriving DecidableEq

namespace Doc

def empty : Doc := ⟨∅, ∅⟩

variable (content : Text) (d : Doc)

def live : Finset Nat := d.inserts \ d.deletes

/-- `Y.applyUpdate`. -/
def merge (update : Doc) : Doc := ⟨d.inserts ∪ update.inserts, d.deletes ∪ update.deletes⟩

/-- `Y.encodeStateAsUpdate`: the inserts that are not known yet, and every deletion. -/
def since (known : Finset Nat) : Doc := ⟨d.inserts \ known, d.deletes⟩

/-- The text named "file". -/
def text : Text := (List.replicate d.live.card content).flatten

def isEmpty : Bool := (d.text content).length = 0

def clear : Doc := ⟨d.inserts, d.deletes ∪ d.inserts⟩

/-- The default adapter's `seed`, with the insert's number. -/
def seed (insert : Nat) : Doc :=
  if d.isEmpty content ∧ 0 < content.length then ⟨d.inserts ∪ {insert}, d.deletes⟩ else d

end Doc

/-- The frames of a client: `op` of kind `u`, `presence` of kinds `s1` and `s2`. -/
inductive Payload where
  | u (update : Doc)
  | s1 (known : Finset Nat)
  | s2 (update : Doc)
  deriving DecidableEq

abbrev Msg := ClientMsg Payload

structure Client where
  doc : Doc
  peers : Finset Nat
  peerId : Option Nat
  synced : Bool
  pendingContent : Option Text
  welcomed : Bool
  offline : Bool
  seeded : Bool
  seedContent : Option Text
  /-- Timers that have not fired. -/
  retryTimers : Nat
  seedTimers : Nat
  /-- There is a `CollabSocket`, and its session while it is open. -/
  hasSocket : Bool
  session : Option Nat

namespace Client

def new : Client := ⟨Doc.empty, ∅, none, false, none, false, false, false, none, 0, 0, false, none⟩

variable (content : Text) (c : Client)

def otherPeers : Finset Nat := c.peers.filter fun p => some p ≠ c.peerId

def serialize : Text := c.doc.text content

def hydrated : Bool := c.seeded || c.synced || !c.doc.isEmpty content

/-- `peerId` is the lowest of the peers. -/
def isLowest : Bool := c.peers.filter (fun p => some p = c.peerId ∧ ∀ q ∈ c.peers, p ≤ q) ≠ ∅

def syncRequest : Msg := .presence (some (.s1 c.doc.inserts))

def maybeSeed (insert : Nat) (force : Bool) : Client × List Msg :=
  if ¬ c.doc.isEmpty content then (c, [])
  else if ¬ (c.welcomed ∨ c.offline) ∨ (c.otherPeers ≠ ∅ ∧ ¬ force) then (c, [])
  else
    match c.pendingContent with
    | none => (c, [])
    | some text =>
      let doc := c.doc.seed text insert
      ({ c with pendingContent := none, seeded := true, seedContent := some text, doc := doc },
        if doc = c.doc then [] else [.op (.u ⟨{insert}, ∅⟩)])

def adoptContent (insert : Nat) : Client × List Msg :=
  { c with pendingContent := some content }.maybeSeed content insert false

/-- `_onMessage`, but for a welcome. -/
def onMessage : ServerEvent Payload → Client × List Msg
  | .peerJoin peer =>
    let c := { c with peers := insert peer.peerId c.peers }
    (c, if c.isLowest then [c.syncRequest] else [])
  | .peerLeave p => ({ c with peers := c.peers.erase p }, [])
  | .presence _ (some (.s1 known)) => (c, [.presence (some (.s2 (c.doc.since known)))])
  | .presence _ (some (.s2 update)) => ({ c with synced := true, doc := c.doc.merge update }, [])
  | .op o =>
    match o.payload with
    | .u update => ({ c with synced := true, doc := c.doc.merge update }, [])
    | _ => (c, [])
  | _ => (c, [])

def onMessages : Client → List (ServerEvent Payload) → Client × List Msg
  | c, [] => (c, [])
  | c, e :: rest =>
    let first := c.onMessage e
    let later := onMessages first.1 rest
    (later.1, first.2 ++ later.2)

/-- The first part of `_onWelcome`: who is there, and what was sent before. -/
def greet (w : Welcome Payload) : Client × List Msg :=
  { c with welcomed := true, peerId := some w.peerId, peers := (w.peers.map Collab.PeerInfo.peerId).toFinset }.onMessages w.catchup

/-- The client seeded, has not been typed past it, and is not the lowest peer. -/
def dropsSeed : Bool :=
  c.seeded && c.seedContent.any (fun seed => c.doc.text content = seed) && !c.isLowest

def onWelcome (insert : Nat) (w : Welcome Payload) : Client × List Msg :=
  let greeted := c.greet w
  let c := greeted.1
  if c.otherPeers ≠ ∅ then
    let c := if c.dropsSeed content then { c with doc := c.doc.clear, seeded := false } else c
    ({ c with retryTimers := c.retryTimers + 1, seedTimers := c.seedTimers + 1 }, greeted.2 ++ [c.syncRequest])
  else
    let seeded := c.maybeSeed content insert false
    (seeded.1, greeted.2 ++ seeded.2)

def onRetryTimer : Client × List Msg :=
  if c.retryTimers = 0 then (c, [])
  else ({ c with retryTimers := c.retryTimers - 1 }, if c.synced then [] else [c.syncRequest])

def onSeedTimer (insert : Nat) : Client × List Msg :=
  if c.seedTimers = 0 then (c, []) else { c with seedTimers := c.seedTimers - 1 }.maybeSeed content insert true

/-- `onStatus` of a socket that closed. -/
def onClosed (insert : Nat) : Client × List Msg :=
  let c := { c with session := none }
  if c.welcomed then (c, []) else { c with offline := true }.maybeSeed content insert false

def disconnect : Client := { c with hasSocket := false, session := none, welcomed := false }

end Client

/-! ### Clients, sockets and the room -/

structure World where
  clients : Table Nat Client
  wire : Wire Payload
  /-- The number of the next insert. -/
  nextInsert : Nat

inductive Action where
  | new (c : Nat)
  | connect (c : Nat) (userId username : Text) (canWrite : Bool)
  | adoptContent (c : Nat)
  | deliver (c : Nat)
  | retryTimer (c : Nat)
  | seedTimer (c : Nat)
  | drop (c : Nat)
  | disconnect (c : Nat)
  | destroy (c : Nat)
  | serve (p : Nat) (canWrite : Bool)
  | leave (p : Nat)
  | evictIdle

namespace World

variable (content : Text) (w : World)

def empty : World := ⟨Table.empty, Wire.empty, 0⟩

/-- The client after a step of its own, and what it sent; without a session that is lost. -/
def set (c : Nat) (done : Client × List Msg) : World :=
  { w with
    clients := w.clients.put c done.1
    wire := match done.1.session with
      | some p => w.wire.say p done.2
      | none => w.wire }

/-- A step of the client `c`, if it is there. -/
def change (c : Nat) (f : Client → Client × List Msg) : World :=
  match w.clients.get? c with
  | none => w
  | some client => w.set c (f client)

def connect (now c : Nat) (userId username : Text) (canWrite : Bool) : World :=
  match w.clients.get? c with
  | none => w
  | some client =>
    if client.session.isSome ∨ (client.offline ∧ ¬ client.hasSocket) then w
    else
      let client := { client with hasSocket := true }
      let joined := w.wire.join now userId username canWrite
      match joined.1 with
      | some p => { w with clients := w.clients.put c { client with session := some p }, wire := joined.2 }
      | none => w.set c (client.onClosed content w.nextInsert)

def hear (frame : Frame Payload) (client : Client) : Client × List Msg :=
  match frame with
  | .welcome welcome => client.onWelcome content w.nextInsert welcome
  | .event e => client.onMessage e

def deliver (c : Nat) : World :=
  match w.clients.get? c with
  | none => w
  | some client =>
    match client.session with
    | none => w
    | some p =>
      match w.wire.ahead p with
      | [] => w
      | frame :: _ => { w with wire := w.wire.hear p }.set c (w.hear content frame client)

def act (bytes : Payload → Nat) (now : Nat) : Action → World
  | .new c => if w.clients.get? c = none then { w with clients := w.clients.put c Client.new } else w
  | .connect c userId username canWrite => w.connect content now c userId username canWrite
  | .adoptContent c => w.change c fun client => client.adoptContent content w.nextInsert
  | .deliver c => w.deliver content c
  | .retryTimer c => w.change c fun client => client.onRetryTimer
  | .seedTimer c => w.change c fun client => client.onSeedTimer content w.nextInsert
  | .drop c => w.change c fun client => client.onClosed content w.nextInsert
  | .disconnect c => w.change c fun client => (client.disconnect, [])
  | .destroy c => { w with clients := w.clients.erase c }
  | .serve p canWrite => { w with wire := w.wire.serve bytes now p canWrite }
  | .leave p => { w with wire := w.wire.leave now p }
  | .evictIdle => { w with wire := w.wire.evictIdle now }

def step (bytes : Payload → Nat) (now : Nat) (a : Action) : World :=
  { w.act content bytes now a with nextInsert := w.nextInsert + 1 }

def run (bytes : Payload → Nat) : List (Nat × Action) → World → World
  | [], w => w
  | (now, a) :: rest, w => run bytes rest (w.step content bytes now a)

end World

end LibreServ.DocSync
