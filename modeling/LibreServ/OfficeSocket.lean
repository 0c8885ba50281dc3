import LibreServ.OfficeDocs

/-! The hub of all office documents and the sockets that speak to it, from `office/office_docs.rs` and
`api/office_ws.rs`. Whether a token is genuine and what its holder may do right now comes from outside: each step
brings its own answers. -/

namespace LibreServ.Office

open Files (Text)

/-- What an office token says. -/
structure OfficeClaims where
  sub : Text
  linkId : Option Text
  key : Option Text
  bundleId : Option Text
  driveId : Text
  path : Text
  write : Bool
  deriving DecidableEq

/-- What a step reads of the world outside. -/
structure Env where
  now : Clock
  verifyOfficeToken : Text → Option OfficeClaims
  /-- `current_office_access`: whether there is access now, and whether it is for writing. -/
  currentOfficeAccess : OfficeClaims → Option Bool
  displayName : Text → Text

/-! ### The hub -/

abbrev Sessions := Table Text DocSession

namespace Sessions

variable (h : Sessions)

/-- A call to the session of a key. -/
def call {α : Type} (key : Text) (missing : α) (f : DocSession → α × DocSession) : α × Sessions :=
  match h.get? key with
  | none => (missing, h)
  | some s => ((f s).1, h.put key (f s).2)

def registerKey (now : Clock) (key driveId path : Text) : Except HubError Unit × Sessions :=
  match h.get? key with
  | some s => (.ok (), h.put key { s with driveId := driveId, path := path })
  | none =>
    if maxDocSessions ≤ h.rows.length then (.error .tooManySessions, h)
    else (.ok (), h.put key (DocSession.new now driveId path))

def resurrectKey (now : Clock) (key driveId path : Text) : Except HubError Unit × Sessions :=
  match h.get? key with
  | some _ => (.ok (), h)
  | none =>
    if maxDocSessions ≤ h.rows.length then (.error .tooManySessions, h)
    else (.ok (), h.put key { DocSession.new now driveId path with resurrected := true })

def claimLiveKey (now : Clock) (driveId path : Text) : Option Text × Sessions :=
  let live := h.rows.find? fun r =>
    r.2.driveId = driveId && r.2.path = path &&
      (r.2.participants.rows ≠ [] || r.2.pendingUntil.any fun t => now.instant < t)
  match live with
  | none => (none, h)
  | some (key, s) =>
    (some key, h.put key { s with pendingUntil := some (now.instant + claimTtl), lastEvent := now.instant })

def evictIdle (now : Clock) : Sessions :=
  h.keep fun _ s => !(s.participants.rows = [] && idleEmpty < now.instant - s.lastEvent)

/-- `verify_token`: a room that is gone is made again for a token that is good. -/
def verifyToken (env : Env) (key token : Text) : Option (OfficeClaims × Bool) × Sessions :=
  match env.verifyOfficeToken token with
  | none => (none, h)
  | some claims =>
    if claims.key.any fun k => k ≠ key then (none, h)
    else
      match env.currentOfficeAccess claims with
      | none => (none, h)
      | some writeNow =>
        if claims.write ∧ ¬ writeNow then (none, h)
        else
          match h.get? key with
          | some s =>
            if s.driveId = claims.driveId ∧ s.path = claims.path then (some (claims, claims.write && writeNow), h)
            else (none, h)
          | none =>
            match h.resurrectKey env.now key claims.driveId claims.path with
            | (.ok _, h) => (some (claims, claims.write && writeNow), h)
            | (.error _, h) => (none, h)

end Sessions

/-! ### Messages -/

/-- A message of a client, with the fields that are read; `untyped` has no `type`, `other` one that does nothing. -/
inductive Message where
  | auth (m : AuthMsg)
  | saveChanges (m : SaveMsg)
  | getLock (block : Option (List Block))
  | unlock (m : UnlockMsg)
  | isSaveLock
  | unSaveLock
  | cursor
  | message
  | lunaSaveLock
  | lunaSaveEnd
  | lunaSaved
  | getMessages
  | getUsers
  | getLocks
  | close
  | other
  | untyped

/-- A socket's own state. -/
structure ClientState where
  key : Text
  authed : Bool
  canWrite : Bool
  claims : Option OfficeClaims
  participant : Option Participant
  /-- The loop has ended; the hub will hear of it. -/
  closed : Bool

inductive PacketOutcome where
  | frames (frames : List Frame)
  | close
  | ignore

structure Handled where
  outcome : PacketOutcome
  client : ClientState
  sessions : Sessions
  /-- Frames for everybody else in the room. -/
  relayed : List Frame

namespace ClientState

variable (c : ClientState)

def opened (key : Text) : ClientState := ⟨key, false, false, none, none, false⟩

/-- `access_still_valid`. -/
def accessStillValid (env : Env) : Option ClientState :=
  match c.claims with
  | none => none
  | some claims =>
    match env.currentOfficeAccess claims with
    | none => none
    | some write => if claims.write ∧ ¬ write then none else some { c with canWrite := claims.write && write }

def participantsJson (h : Sessions) : List Participant := ((h.get? c.key).map DocSession.participantsJson).getD []

/-- A call that was refused is not answered. -/
def answered (c : ClientState) (r : Except HubError (List Frame × Option Frame) × Sessions) : Handled :=
  match r.1 with
  | .ok (replies, broadcast) => ⟨.frames replies, c, r.2, broadcast.toList⟩
  | .error _ => ⟨.ignore, c, r.2, []⟩

def usernameOf (env : Env) (claims : OfficeClaims) : Text :=
  if claims.linkId.isSome then "Guest".toList else env.displayName claims.sub

/-- The room's answer to `auth`, once the message is known to be for it. -/
def handleAuthed (env : Env) (h : Sessions) (sock : Nat) (claims : OfficeClaims) (m : AuthMsg) : Handled :=
  let r := h.call c.key (.error .unknownKey)
    (fun s => s.auth env.now sock claims.sub (usernameOf env claims) m c.canWrite)
  match r.1 with
  | .error .stale => ⟨.frames [.error "Restore error. Document modified." 4010], c, r.2, []⟩
  | .error _ => ⟨.frames [.authRefused], c, r.2, []⟩
  | .ok joined =>
    let c := { c with authed := true, participant := some joined.participant }
    let relayed := .connectState (c.participantsJson r.2) :: joined.peers.toList
    if m.openCmd then
      if claims.key.isNone ∨ claims.bundleId.isNone then ⟨.close, c, r.2, []⟩
      else
        let opened := r.2.call c.key Frame.documentMissing fun s => (.documentOpen, s.touch env.now)
        ⟨.frames (joined.replies ++ [opened.1]), c, opened.2, relayed⟩
    else ⟨.frames joined.replies, c, r.2, relayed⟩

def handleAuth (env : Env) (h : Sessions) (sock : Nat) (claims : OfficeClaims) (m : AuthMsg) : Handled :=
  if m.docid.any fun d => d ≠ c.key then ⟨.close, c, h, []⟩
  else if c.authed then c.handleAuthed env h sock claims m
  else if m.jwt = [] then ⟨.close, c, h, []⟩
  else
    match h.verifyToken env c.key m.jwt with
    | (none, h) => ⟨.close, c, h, []⟩
    | (some _, h) => c.handleAuthed env h sock claims m

/-- The messages of a client that has access. -/
def dispatch (env : Env) (h : Sessions) (sock : Nat) (claims : OfficeClaims) : Message → Handled
  | .auth m => c.handleAuth env h sock claims m
  | .saveChanges m => c.answered (h.call c.key (.error .unknownKey) (fun s => s.saveChanges env.now sock m))
  | .getLock block =>
    let r := h.call c.key (.error .unknownKey) (fun s => s.getLock env.now sock block)
    c.answered (r.1.map (fun f => ([f.1], some f.2)), r.2)
  | .unlock m => c.answered (h.call c.key (.error .unknownKey) (fun s => s.unlock env.now sock m))
  | .isSaveLock =>
    let r := h.call c.key none fun s => ((some (s.isSaveLock env.now sock).1), (s.isSaveLock env.now sock).2)
    ⟨r.1.elim .ignore fun f => .frames [f], c, r.2, []⟩
  | .unSaveLock =>
    let r := h.call c.key none fun s => s.unSaveLock env.now sock
    ⟨r.1.elim .ignore fun f => .frames [f], c, r.2, []⟩
  | .cursor => ⟨.ignore, c, h, [.cursor (c.participant.map Participant.id)]⟩
  | .message =>
    ⟨.frames [.message (c.participant.map Participant.id)], c, h, [.message (c.participant.map Participant.id)]⟩
  | .lunaSaveLock =>
    let r := h.call c.key none fun s => ((some (s.lunaSaveLock env.now sock).1), (s.lunaSaveLock env.now sock).2)
    ⟨r.1.elim .ignore fun f => .frames [f], c, r.2, []⟩
  | .lunaSaveEnd => ⟨.ignore, c, (h.call c.key () fun s => ((), s.lunaSaveEnd sock)).2, []⟩
  | .lunaSaved => ⟨.ignore, c, h, [.lunaSaved (c.participant.map fun p => (p.idOriginal, p.indexUser))]⟩
  | .getMessages => ⟨.frames [.message none], c, h, []⟩
  | .getUsers => ⟨.frames [.getUsers (c.participantsJson h)], c, h, []⟩
  | .getLocks => ⟨.frames [.getLock (((h.get? c.key).map fun s => s.locks.rows).getD [])], c, h, []⟩
  | .close => ⟨.close, c, h, []⟩
  | .other => ⟨.ignore, c, h, []⟩
  | .untyped => ⟨.ignore, c, h, []⟩

def handleMessage (env : Env) (h : Sessions) (sock : Nat) (msg : Message) : Handled :=
  match msg with
  | .untyped => ⟨.ignore, c, h, []⟩
  | msg =>
    match c.claims, c.accessStillValid env with
    | some claims, some c => c.dispatch env h sock claims msg
    | _, _ => ⟨.close, c, h, []⟩

/-- The socket's `CONNECT` packet. -/
def connect (env : Env) (h : Sessions) (docid : Option Text) (token : Text) : Handled :=
  let docid := docid.getD c.key
  match h.verifyToken env docid token with
  | (some (claims, write), h) =>
    if docid = c.key then ⟨.frames [.license], { c with canWrite := write, claims := some claims }, h, []⟩
    else ⟨.frames [.unauthorized], c, h, []⟩
  | (none, h) => ⟨.frames [.unauthorized], c, h, []⟩

end ClientState

/-! ### All sockets -/

structure World where
  sessions : Sessions
  clients : Table Nat ClientState
  /-- The number the next socket gets. -/
  sockSeq : Nat

inductive Action where
  /-- A socket for a key. -/
  | opened (key : Text)
  | connect (sock : Nat) (docid : Option Text) (token : Text)
  | message (sock : Nat) (msg : Message)
  /-- The socket has ended, for whatever reason. -/
  | ended (sock : Nat)
  | registerKey (key driveId path : Text)
  | claimLiveKey (driveId path : Text)
  | bundleRefreshed (key user : Text) (coverage : Option Int)
  | evictIdle

namespace World

def empty : World := ⟨Table.empty, Table.empty, 1⟩

variable (w : World)

/-- What became of a socket's packet. -/
def handled (sock : Nat) (r : Handled) : World :=
  let client := match r.outcome with
    | .close => { r.client with closed := true }
    | _ => r.client
  { w with sessions := r.sessions, clients := w.clients.put sock client }

/-- A packet is read only while the socket's loop goes on. -/
def packet (sock : Nat) (f : ClientState → Handled) : World :=
  match w.clients.get? sock with
  | none => w
  | some c => if c.closed then w else w.handled sock (f c)

def step (env : Env) : Action → World
  | .opened key => { w with clients := w.clients.put w.sockSeq (ClientState.opened key), sockSeq := w.sockSeq + 1 }
  | .connect sock docid token => w.packet sock fun c => c.connect env w.sessions docid token
  | .message sock msg => w.packet sock fun c => c.handleMessage env w.sessions sock msg
  | .ended sock =>
    match w.clients.get? sock with
    | none => w
    | some c =>
      { w with
        sessions := (w.sessions.call c.key [] fun s => s.disconnect env.now sock).2
        clients := w.clients.erase sock }
  | .registerKey key driveId path => { w with sessions := (w.sessions.registerKey env.now key driveId path).2 }
  | .claimLiveKey driveId path => { w with sessions := (w.sessions.claimLiveKey env.now driveId path).2 }
  | .bundleRefreshed key user coverage =>
    { w with sessions := (w.sessions.call key () fun s => ((), s.bundleRefreshed env.now user coverage)).2 }
  | .evictIdle => { w with sessions := w.sessions.evictIdle env.now }

/-- Actions one after the other. -/
def run : List (Env × Action) → World → World
  | [], w => w
  | (env, a) :: rest, w => run rest (w.step env a)

end World

end LibreServ.Office
