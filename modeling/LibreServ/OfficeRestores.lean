import LibreServ.OfficeJoiners

/-! Clients that come back to an office document, from `office/office_docs.rs`. A client keeps its document over a
lost connection; `auth` with a `sessionId` has to find out whether it missed anything meanwhile. -/

namespace LibreServ.Restore

open Files (Text)

open Office (AuthMsg Clock DocSession OpRecord SaveMsg)

open LibreServ.Bundle (edits)

/-- A client with the document open, over all its sockets. -/
structure Client where
  user : Text
  /-- The socket it has now, or had last. -/
  sock : Nat
  /-- Whether that socket is open on its side. -/
  live : Bool
  /-- The session it opened the document in. -/
  era : Nat
  /-- The edits of others it has received, with those `auth` replayed. -/
  received : List OpRecord
  /-- Broadcasts since it opened the document that it has not received. -/
  owed : List (List OpRecord)
  /-- Edits of others that nobody will send it any more. -/
  missed : List OpRecord
  /-- Its own edits that were acknowledged. -/
  own : List OpRecord

structure World where
  session : Option DocSession
  /-- How often the session was made. -/
  era : Nat
  clients : Table Nat Client
  /-- The number the next socket gets. -/
  sockSeq : Nat
  /-- Every edit that was accepted under the key. -/
  accepted : List OpRecord
  /-- The edits that `bundle_refreshed` took out of the log. -/
  baked : List OpRecord

inductive Action where
  /-- The flag says whether the hub has room for another session. -/
  | registerKey (driveId path : Text) (room : Bool)
  | resurrectKey (driveId path : Text) (room : Bool)
  /-- `auth` without a `sessionId`. -/
  | join (user username : Text) (m : AuthMsg) (canWrite : Bool)
  /-- `auth` with the `sessionId` of the client's last socket. -/
  | restore (client : Nat) (username : Text) (m : AuthMsg) (canWrite : Bool)
  | saveChanges (client : Nat) (m : SaveMsg)
  | deliver (client : Nat)
  /-- The socket closes on the client's side. -/
  | lose (client : Nat)
  | disconnect (sock : Nat)
  | lunaSaveLock (sock : Nat)
  | lunaSaveEnd (sock : Nat)
  | bundleRefreshed (user : Text) (coverage : Option Int)
  | evictIdle

/-- What a client that comes back sends. -/
def Client.asks (c : Client) (m : AuthMsg) : AuthMsg := { m with sessionId := .value (some c.sock) }

namespace World

def start : World := ⟨none, 0, Table.empty, 1, [], []⟩

variable (w : World)

/-- A session is made if there is none. -/
def make (s : DocSession) (room : Bool) : World :=
  if room then { w with session := some s, era := w.era + 1 } else w

def registerKey (now : Clock) (driveId path : Text) (room : Bool) : World :=
  match w.session with
  | some s => { w with session := some { s with driveId := driveId, path := path } }
  | none => w.make (DocSession.new now driveId path) room

def resurrectKey (now : Clock) (driveId path : Text) (room : Bool) : World :=
  match w.session with
  | some _ => w
  | none => w.make { DocSession.new now driveId path with resurrected := true } room

/-- A call to the session, if there is one. -/
def call (f : DocSession → DocSession) : World := { w with session := w.session.map f }

def join (now : Clock) (user username : Text) (m : AuthMsg) (canWrite : Bool) : World :=
  match w.session with
  | none => w
  | some s =>
    if m.isRestore then w
    else
      let r := s.auth now w.sockSeq user username m canWrite
      match r.1 with
      | .error _ => { w with session := some r.2, sockSeq := w.sockSeq + 1 }
      | .ok joined =>
        { w with
          session := some r.2
          sockSeq := w.sockSeq + 1
          clients :=
            w.clients.put w.sockSeq ⟨user, w.sockSeq, true, w.era, joined.replies.flatMap edits, [], [], []⟩ }

def restore (now : Clock) (client : Nat) (username : Text) (m : AuthMsg) (canWrite : Bool) : World :=
  match w.session, w.clients.get? client with
  | some s, some c =>
    let r := s.auth now w.sockSeq c.user username (c.asks m) canWrite
    match r.1 with
    | .error _ => { w with session := some r.2, sockSeq := w.sockSeq + 1 }
    | .ok _ =>
      { w with
        session := some r.2
        sockSeq := w.sockSeq + 1
        clients := w.clients.put client
          { c with sock := w.sockSeq, live := true, owed := [], missed := c.missed ++ c.owed.flatten } }
  | _, _ => w

def saveChanges (now : Clock) (client : Nat) (m : SaveMsg) : World :=
  match w.session, w.clients.get? client with
  | some s, some c =>
    let r := s.saveChanges now c.sock m
    match r.1 with
    | .ok (_, some f) =>
      { w with
        session := some r.2
        clients := w.clients.update fun k c =>
          if k = client then { c with own := c.own ++ edits f } else { c with owed := c.owed ++ [edits f] }
        accepted := w.accepted ++ edits f }
    | _ => { w with session := some r.2 }
  | _, _ => w

def deliver (client : Nat) : World :=
  match w.clients.get? client with
  | none => w
  | some c =>
    match c.owed with
    | [] => w
    | new :: rest =>
      if c.live then { w with clients := w.clients.put client { c with received := c.received ++ new, owed := rest } }
      else w

def lose (client : Nat) : World :=
  { w with clients := w.clients.update fun k c => if k = client then { c with live := false } else c }

/-- What the log loses is in the bundle. -/
def bundleRefreshed (now : Clock) (user : Text) (coverage : Option Int) : World :=
  match w.session with
  | none => w
  | some s =>
    let s' := s.bundleRefreshed now user coverage
    { w with session := some s', baked := w.baked ++ s.ops.filter fun op => op.idx ≤ s'.baseIndex }

def evictIdle (now : Clock) : World :=
  { w with
    session := w.session.filter fun s => !(s.participants.rows = [] && Office.idleEmpty < now.instant - s.lastEvent) }

def step (now : Clock) : Action → World
  | .registerKey driveId path room => w.registerKey now driveId path room
  | .resurrectKey driveId path room => w.resurrectKey now driveId path room
  | .join user username m canWrite => w.join now user username m canWrite
  | .restore client username m canWrite => w.restore now client username m canWrite
  | .saveChanges client m => w.saveChanges now client m
  | .deliver client => w.deliver client
  | .lose client => w.lose client
  | .disconnect sock => w.call fun s => (s.disconnect now sock).2
  | .lunaSaveLock sock => w.call fun s => (s.lunaSaveLock now sock).2
  | .lunaSaveEnd sock => w.call fun s => s.lunaSaveEnd sock
  | .bundleRefreshed user coverage => w.bundleRefreshed now user coverage
  | .evictIdle => w.evictIdle now

def run : List (Clock × Action) → World → World
  | [], w => w
  | (now, a) :: rest, w => run rest (w.step now a)

/-- The client missed nothing, and its own edits are in the log or in the bundle. -/
def Complete (s : DocSession) (c : Client) : Prop :=
  c.missed ++ c.owed.flatten = [] ∧ ∀ op ∈ c.own, op ∈ s.ops ∨ op ∈ w.baked

/-! ### When nothing is missed -/

/-- A save that takes edits back. -/
def takesBack (s : DocSession) (m : SaveMsg) : Prop :=
  m.startSaveChanges = true ∧ m.deleteIndex.getD (-1) ≠ -1 ∧ 0 < Office.sub64 s.changeIndex (m.deleteIndex.getD (-1))

/-- How far an uploaded bundle is taken to reach. -/
def bound (s : DocSession) (user : Text) (coverage : Option Int) : Int :=
  (coverage.map fun c => min c (s.deliveredTo user)).getD (s.deliveredTo user)

/-- The newest edit of the log tells whether the client, which sends `m`, has missed one. -/
def Tells (s : DocSession) (c : Client) (m : AuthMsg) : Prop :=
  ∀ newest, s.ops.getLast? = some newest →
    newest ∈ c.own ∨ newest.user ≠ s.joinId c.user (c.asks m) ∧
      ∀ t, m.lastOtherSaveTime = some t → t = newest.time ∨ 1000 ≤ (t - newest.time).natAbs

/-- An editor sends the time of the last edit of others it has received. -/
def Honest (c : Client) (m : AuthMsg) : Prop :=
  m.view = false ∧ ∃ op, c.received.getLast? = some op ∧ m.lastOtherSaveTime = some op.time

/-- What a step must be like for a client that comes back to have missed nothing. -/
def Meets (now : Clock) : Action → Prop
  -- no two saves at one time, and a client saves when it has received all there is
  | .saveChanges client m => ∀ s c, w.session = some s → w.clients.get? client = some c →
      ¬ takesBack s m ∧ (m.changes = [] ∨ c.owed.flatten = [] ∧ (∀ op ∈ w.accepted, op.time ≠ now.ms) ∧
        0 ≤ now.ms ∧ now.ms < 2 ^ 63)
  -- the newest edit leaves the log when every client of the session has received it
  | .bundleRefreshed user coverage => ∀ s, w.session = some s → s.changeIndex ≤ bound s user coverage →
      ∀ k c, w.clients.get? k = some c → c.era = w.era → c.owed.flatten = []
  | .restore client _ m _ => ∀ s c, w.session = some s → w.clients.get? client = some c →
      (c.era = w.era ∨ s.resurrected = true) ∧ Tells s c m ∧ (Honest c m ∨ c.owed.flatten = [])
  | _ => True

def MeetsAll : World → List (Clock × Action) → Prop
  | _, [] => True
  | w, (now, a) :: rest => w.Meets now a ∧ MeetsAll (w.step now a) rest

end World

end LibreServ.Restore
