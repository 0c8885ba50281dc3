import LibreServ.CollabWire

/-! Diagrams that are edited together, from `diagram/diagramCollab.js`. Patches travel as edits of the room. A client
hands over what others sent, leaves out what it knows, and says how far the file it writes goes. -/

namespace LibreServ.Diagram

open Files (Text)

open Collab (Wire ServerEvent ClientMsg Frame Op opsOf)

def appliedCap : Nat := 512

/-- A patch of the editor with its checksum. -/
structure Payload (D : Type) where
  patch : D
  checksum : Option D
  deriving DecidableEq

variable {D : Type}

/-- `patchFingerprint` is a parameter; it is empty where a patch has no text. -/
abbrev Fingerprint (D : Type) := D → Text

structure Client (D : Type) where
  canWrite : Bool
  selfPeerId : Option Nat
  serverCanWrite : Option Bool
  /-- `appliedOrder`, which holds what `appliedSeqs` does. -/
  applied : List Nat
  sentFingerprints : List Text
  outstanding : List Nat
  includedSeq : Nat
  pending : Nat
  /-- The session of its socket, while that is open. -/
  session : Option Nat
  /-- All its sessions, for the record. -/
  sessions : List Nat
  /-- Edits that reached it, live or in catch-up, for the record. -/
  heard : List (Op (Payload D))
  /-- Calls of `onRemotePatch`, for the record. -/
  handed : List (Op (Payload D))
  /-- What the editor confirmed, for the record. -/
  confirmed : List (Op (Payload D))

namespace Client

def new (canWrite : Bool) : Client D := ⟨canWrite, none, none, [], [], [], 0, 0, none, [], [], [], []⟩

variable (fingerprint : Fingerprint D) (c : Client D)

def writable : Bool := c.canWrite && c.serverCanWrite != some false

/-- `patchesToApply`: a pending patch is the edit without its sender. -/
def patchesToApply (events : List (ServerEvent (Payload D))) : List (Op (Payload D)) :=
  (opsOf events).filter fun o =>
    c.selfPeerId ≠ some o.peerId && o.seq ∉ c.applied &&
      !(fingerprint o.payload.patch ≠ [] && fingerprint o.payload.patch ∈ c.sentFingerprints)

/-- `_deliver`. -/
def deliver (o : Op (Payload D)) : Client D :=
  { c with
    outstanding := if o.seq ∈ c.outstanding then c.outstanding else c.outstanding ++ [o.seq]
    handed := c.handed ++ [o] }

/-- What events of the room do. -/
def receive (events : List (ServerEvent (Payload D))) : Client D :=
  (c.patchesToApply fingerprint events).foldl deliver { c with heard := c.heard ++ opsOf events }

def noteIncluded (seq : Nat) : Client D := { c with includedSeq := max c.includedSeq seq }

def onAck (seq : Nat) : Client D := { c with pending := c.pending - 1 }.noteIncluded seq

/-- An answer of the hub; of those only an ack matters here. -/
def onAnswer : ServerEvent (Payload D) → Client D
  | .ack seq => c.onAck seq
  | _ => c

def onFrame : Frame (Payload D) → Client D
  | .welcome w =>
    { c with selfPeerId := some w.peerId, serverCanWrite := some w.canWrite }.receive fingerprint w.catchup
  | .event e => c.receive fingerprint [e]

/-- `sendPatch`: what it sends, if the socket is open. -/
def sendPatch (patch : D) (checksum : Option D) : Client D × List (ClientMsg (Payload D)) :=
  if ¬ c.writable then (c, [])
  else
    let fp := fingerprint patch
    let c := if fp ≠ [] ∧ fp ∉ c.sentFingerprints then { c with sentFingerprints := c.sentFingerprints ++ [fp] } else c
    if c.session.isSome then ({ c with pending := c.pending + 1 }, [.op ⟨patch, checksum⟩]) else (c, [])

def contiguousSeq : Nat :=
  match c.outstanding.min? with
  | none => c.includedSeq
  | some least => min c.includedSeq (least - 1)

def snapshotSeq : Option Nat := if 0 < c.pending then none else some c.contiguousSeq

def markApplied (seq : Nat) : Client D :=
  if seq ∈ c.applied then c
  else { c with applied := (c.applied ++ [seq]).drop ((c.applied ++ [seq]).length - appliedCap) }

/-- `confirmApplied`, of a patch that was handed over. -/
def confirmApplied (o : Op (Payload D)) : Client D :=
  let c := c.markApplied o.seq
  { c with outstanding := c.outstanding.filter (· ≠ o.seq), confirmed := c.confirmed ++ [o] }.noteIncluded o.seq

end Client

/-! ### Clients, sockets and the room -/

structure World (D : Type) where
  clients : Table Nat (Client D)
  wire : Wire (Payload D)

inductive Action (D : Type) where
  | new (c : Nat) (canWrite : Bool)
  | connect (c : Nat) (userId username : Text) (canWrite : Bool)
  | sendPatch (c : Nat) (patch : D) (checksum : Option D)
  | deliver (c : Nat)
  | answer (c : Nat)
  /-- The editor confirms the `k`-th patch it was handed. -/
  | confirmApplied (c k : Nat)
  | sendSaved (c : Nat) (size seq : Option Nat)
  | fileLanded (userId : Text) (coverage : Option Nat)
  | drop (c : Nat)
  | close (c : Nat)
  | serve (p : Nat) (canWrite : Bool)
  | leave (p : Nat)
  | evictIdle

namespace World

variable (fingerprint : Fingerprint D) (w : World D)

def empty : World D := ⟨Table.empty, Wire.empty⟩

/-- A step of the client `c`, if it is there. -/
def change (c : Nat) (f : Client D → Client D) : World D :=
  match w.clients.get? c with
  | none => w
  | some client => { w with clients := w.clients.put c (f client) }

def say (session : Option Nat) (msgs : List (ClientMsg (Payload D))) : World D :=
  match session with
  | some p => { w with wire := w.wire.say p msgs }
  | none => w

def connect (now c : Nat) (userId username : Text) (canWrite : Bool) : World D :=
  match w.clients.get? c with
  | none => w
  | some client =>
    if client.session.isSome then w
    else
      let joined := w.wire.join now userId username canWrite
      match joined.1 with
      | some p =>
        { clients := w.clients.put c { client with session := some p, sessions := client.sessions ++ [p] },
          wire := joined.2 }
      | none => w

def sendPatch (c : Nat) (patch : D) (checksum : Option D) : World D :=
  match w.clients.get? c with
  | none => w
  | some client =>
    let sent := client.sendPatch fingerprint patch checksum
    { w with clients := w.clients.put c sent.1 }.say sent.1.session sent.2

def deliver (c : Nat) : World D :=
  match w.clients.get? c with
  | none => w
  | some client =>
    match client.session with
    | none => w
    | some p =>
      match w.wire.ahead p with
      | [] => w
      | frame :: _ => { clients := w.clients.put c (client.onFrame fingerprint frame), wire := w.wire.hear p }

def answer (c : Nat) : World D :=
  match w.clients.get? c with
  | none => w
  | some client =>
    match client.session with
    | none => w
    | some p =>
      match (w.wire.sockets.get? p).bind fun s => s.answers.head? with
      | none => w
      | some e => { clients := w.clients.put c (client.onAnswer e), wire := w.wire.takeAnswer p }

def confirmApplied (c k : Nat) : World D :=
  match w.clients.get? c with
  | none => w
  | some client =>
    match client.handed[k]? with
    | none => w
    | some o => { w with clients := w.clients.put c (client.confirmApplied o) }

def sendSaved (c : Nat) (size seq : Option Nat) : World D :=
  match w.clients.get? c with
  | none => w
  | some client => w.say client.session [.saved size seq]

def step (bytes : Payload D → Nat) (now : Nat) : Action D → World D
  | .new c canWrite => if w.clients.get? c = none then { w with clients := w.clients.put c (Client.new canWrite) } else w
  | .connect c userId username canWrite => w.connect now c userId username canWrite
  | .sendPatch c patch checksum => w.sendPatch fingerprint c patch checksum
  | .deliver c => w.deliver fingerprint c
  | .answer c => w.answer c
  | .confirmApplied c k => w.confirmApplied c k
  | .sendSaved c size seq => w.sendSaved c size seq
  | .fileLanded userId coverage => { w with wire := w.wire.fileLanded now userId coverage }
  | .drop c => w.change c fun client => { client with session := none }
  | .close c => { w with clients := w.clients.erase c }
  | .serve p canWrite => { w with wire := w.wire.serve bytes now p canWrite }
  | .leave p => { w with wire := w.wire.leave now p }
  | .evictIdle => { w with wire := w.wire.evictIdle now }

def run (bytes : Payload D → Nat) : List (Nat × Action D) → World D → World D
  | [], w => w
  | (now, a) :: rest, w => run bytes rest (w.step fingerprint bytes now a)

end World

end LibreServ.Diagram
