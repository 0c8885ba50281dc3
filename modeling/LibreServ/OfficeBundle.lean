import LibreServ.OfficeDocs

/-! The document of one key as its clients have it, from `office/office_docs.rs` and from `bundle_write` of
`api/office.rs`. A client's document is the `Editor.bin` it read, the edits the answer to its `auth` carried and the
edits since. A document stands for the edits in it. -/

namespace LibreServ.Bundle

open Files (Text)

open Office (AuthMsg Clock DocSession Frame OpRecord)

/-- The edits a frame carries. -/
def edits : Frame → List OpRecord
  | .authChanges changes => changes
  | .saveChanges changes _ _ _ _ => changes
  | _ => []

/-- How far a document reaches: the index of its newest edit. -/
def reach (doc : List OpRecord) : Int := (doc.getLast?.map OpRecord.idx).getD 0

structure Client where
  user : Text
  write : Bool
  /-- What came with the answer to `auth`. -/
  replay : List OpRecord
  /-- The `Editor.bin` it has read. -/
  opened : Option (List OpRecord)
  /-- Its own edits and those it was sent. -/
  since : List OpRecord
  /-- Broadcasts since its `auth` that it has not received. -/
  owed : List Frame

/-- An upload whose rename is done and whose `bundle_refreshed` is not. -/
structure Landing where
  saver : Text
  /-- How far the uploaded document reaches. -/
  index : Int
  /-- The upload reported that. -/
  reported : Bool

def Landing.coverage (e : Landing) : Option Int := if e.reported then some e.index else none

structure World where
  session : DocSession
  editorBin : Option (List OpRecord)
  clients : Table Nat Client
  /-- The number the next socket gets. -/
  sockSeq : Nat
  /-- Those who found no `Editor.bin` and convert the file; one whose token does not let it write has no name. -/
  converting : List (Option Text)
  landing : List Landing
  /-- Every edit the session took. -/
  accepted : List OpRecord

inductive Action where
  /-- A new socket that comes without a `sessionId`. -/
  | auth (user username : Text) (m : AuthMsg) (canWrite : Bool)
  | read (sock : Nat)
  /-- `save_changes` without `deleteIndex`. -/
  | saveChanges (sock : Nat) (changes : List Text) (startSaveChanges endSaveChanges releaseLocks : Bool)
  | deliver (sock : Nat)
  /-- The rename of `bundle_write`, for the document the client had when `n` edits had come. -/
  | install (sock n : Nat) (reported : Bool)
  /-- The client that converts asks for `Editor.bin`. -/
  | ask (saver : Option Text)
  /-- The rename of `bundle_write`, for the file's own conversion. -/
  | convert (i : Nat)
  | bundleRefreshed (i : Nat)
  | lunaSaveLock (sock : Nat)
  | lunaSaveEnd (sock : Nat)
  | disconnect (sock : Nat)

namespace Client

variable (c : Client)

/-- The document it had when `n` edits had come. -/
def state (n : Nat) : Option (List OpRecord) := c.opened.map (· ++ (c.replay ++ c.since).take n)

def document : Option (List OpRecord) := c.opened.map (· ++ (c.replay ++ c.since))

def take (new : List OpRecord) : Client := { c with since := c.since ++ new }

end Client

namespace World

/-- A session as it is made, over the file with or without its conversion. -/
def start (now : Clock) (driveId path : Text) (converted : Bool) : World where
  session := DocSession.new now driveId path
  editorBin := if converted then some [] else none
  clients := Table.empty
  sockSeq := 1
  converting := []
  landing := []
  accepted := []

variable (w : World)

def present (sock : Nat) : Bool := (w.session.participants.get? sock).isSome

def auth (now : Clock) (user username : Text) (m : AuthMsg) (canWrite : Bool) : World :=
  if m.isRestore then w
  else
    let r := w.session.auth now w.sockSeq user username m canWrite
    match r.1 with
    | .error _ => { w with session := r.2, sockSeq := w.sockSeq + 1 }
    | .ok joined =>
      { w with
        session := r.2
        sockSeq := w.sockSeq + 1
        clients := w.clients.put w.sockSeq ⟨user, canWrite, joined.replies.flatMap edits, none, [], []⟩ }

def read (sock : Nat) : World :=
  match w.clients.get? sock, w.editorBin with
  | some c, some doc =>
    if w.present sock ∧ c.opened = none then { w with clients := w.clients.put sock { c with opened := some doc } } else w
  | _, _ => w

def saveChanges (now : Clock) (sock : Nat) (changes : List Text) (startSaveChanges endSaveChanges releaseLocks : Bool) :
    World :=
  let r := w.session.saveChanges now sock ⟨changes, none, startSaveChanges, endSaveChanges, releaseLocks⟩
  match r.1 with
  | .ok (_, some f) =>
    { w with
      session := r.2
      -- everybody else is sent the edits
      clients := w.clients.update fun k c => if k = sock then c.take (edits f) else { c with owed := c.owed ++ [f] }
      accepted := w.accepted ++ edits f }
  | _ => { w with session := r.2 }

def deliver (sock : Nat) : World :=
  match w.clients.get? sock with
  | none => w
  | some c =>
    match c.owed with
    | [] => w
    | f :: rest =>
      if w.present sock then { w with clients := w.clients.put sock { c.take (edits f) with owed := rest } } else w

/-- `bundle_write` up to its rename. -/
def rename (saver : Option Text) (doc : List OpRecord) (reported : Bool) : World :=
  { w with
    editorBin := some doc
    landing := w.landing ++ (saver.map fun user => ⟨user, reach doc, reported⟩).toList }

def install (sock n : Nat) (reported : Bool) : World :=
  match w.clients.get? sock with
  | none => w
  | some c =>
    match c.state n with
    | none => w
    | some doc => w.rename (if c.write then some c.user else none) doc reported

def ask (saver : Option Text) : World :=
  if w.editorBin = none then { w with converting := w.converting ++ [saver] } else w

def convert (i : Nat) : World :=
  match w.converting[i]? with
  | none => w
  | some saver => { w.rename saver [] false with converting := w.converting.eraseIdx i }

def bundleRefreshed (now : Clock) (i : Nat) : World :=
  match w.landing[i]? with
  | none => w
  | some e =>
    { w with session := w.session.bundleRefreshed now e.saver e.coverage, landing := w.landing.eraseIdx i }

def step (now : Clock) : Action → World
  | .auth user username m canWrite => w.auth now user username m canWrite
  | .read sock => w.read sock
  | .saveChanges sock changes startSaveChanges endSaveChanges releaseLocks =>
    w.saveChanges now sock changes startSaveChanges endSaveChanges releaseLocks
  | .deliver sock => w.deliver sock
  | .install sock n reported => w.install sock n reported
  | .ask saver => w.ask saver
  | .convert i => w.convert i
  | .bundleRefreshed i => w.bundleRefreshed now i
  | .lunaSaveLock sock => { w with session := (w.session.lunaSaveLock now sock).2 }
  | .lunaSaveEnd sock => { w with session := w.session.lunaSaveEnd sock }
  | .disconnect sock => { w with session := (w.session.disconnect now sock).2 }

/-- Actions one after the other. -/
def run : List (Clock × Action) → World → World
  | [], w => w
  | (now, a) :: rest, w => run rest (w.step now a)

end World

end LibreServ.Bundle
