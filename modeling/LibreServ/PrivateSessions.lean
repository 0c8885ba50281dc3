import LibreServ.BrowserRecords
import LibreServ.ConnectStorage

/-! Private backups read through Connect, from `handlers/private_open.go`, `cloud_read.go` and `share_links.go`. A
person proves with the recovery phrase's key that a private scope is theirs, and gets a token for it; only with a
token does Connect send the scope's packs and snapshot records. The calls come from the account itself or through a
share link. Times are in nanoseconds; the tables hold seconds. -/

namespace LibreServ.PrivateOpen

open Files (Text)
open Cloud (Bytes Bytes32 bytesToHex canonical signedBytes sealPublicLen sigPublicLen sigLen i64Bytes)
open Connect (BlobPath maxStorageRecordBytes)

def second : Int := 10 ^ 9

/-- `Time.Unix`. -/
def unix (now : Int) : Int := now / second

def privateChallengeTTL : Int := 5 * 60

def maxPrivateChallenges : Nat := 20

def privateSessionTTL : Int := 30 * 60

def packScopeCacheTTL : Int := 60 * second

def shareLinkTTL : Int := 7 * 24 * 3600 * second

def maxActiveShareLinks : Nat := 20

def privateTokenMessage : String := "Enter your recovery phrase again to open your private items."

def privateOpenReadErr : String := "Cloud storage could not open your private items. Try again."

def tooManyMessage : String := "Too many sign-in attempts are open. Wait a few minutes, then try again."

def privatePackReadErr : String := "Cloud storage could not read this backup. Try again."

def packGoneMessage : String := "That backup file is not in cloud storage."

def kindMessage : String := "That kind of backup record is not available."

/-- `[a-z0-9-]{1,64}`: the ids of Lunas and the tags of scopes. -/
def storageScopePattern (t : Text) : Bool :=
  1 ≤ t.length && t.length ≤ 64 && t.all fun c => c.isLower || c.isDigit || c = '-'

/-- `[0-9a-f]{n}`. -/
def hexPattern (n : Nat) (t : Text) : Bool := t.length = n && t.all fun c => c.isDigit || 'a' ≤ c && c ≤ 'f'

def storagePackIDPattern : Text → Bool := hexPattern 64

def utf8 (t : Text) : Bytes := (String.ofList t).toUTF8.toList

/-- `hex.DecodeString`. -/
def unhex (t : Text) : Option Bytes := (Js.digitsOf 16 t).bind Browser.hexPairs

/-- What the caller may read. An account's own call has no kind in the source; a link's is what it shares. -/
inductive Kind where
  | account
  | user
  | backup
  deriving DecidableEq

structure ReadScope where
  account : Text
  luna : Text
  kind : Kind
  value : Text
  deriving DecidableEq

/-! ### Scope records -/

structure ScopeRecord where
  lunaId : Text
  scope : Text
  userId : Text
  sealPublic : Bytes
  authPublic : Bytes
  createdAt : Int
  scopePublic : Bytes
  sealedScopeSecret : Bytes
  sealedDedup : Bytes
  deriving DecidableEq

/-- The JSON of a record and its signature, before the hex is read. -/
structure ScopeRecordWire where
  lunaId : Text
  scope : Text
  userId : Text
  sealPublic : Text
  authPublic : Text
  createdAt : Int
  scopePublic : Text
  sealedScopeSecret : Text
  sealedDedup : Text
  signature : Text

/-- The library calls. `unmarshalSnapshot` reads `protection_id` and `tree_pack_id`. -/
structure Primitives where
  sha256 : Bytes → Bytes32
  edVerify : Bytes → Bytes → Bytes → Bool
  mlVerify : Bytes → Bytes → Bytes → Bool
  lower : Text → Text
  unmarshalScope : Bytes → Option ScopeRecordWire
  unmarshalSnapshot : Bytes → Option (Text × Text)

variable (c : Primitives)

/-- Both halves have to verify. -/
def lunaVerify (pub : Bytes) (domain : String) (msg sig : Bytes) : Bool :=
  if pub.length ≠ sigPublicLen ∨ sig.length ≠ sigLen then false
  else
    c.edVerify (pub.take 32) (signedBytes domain msg) (sig.take 64) &&
      c.mlVerify (pub.drop 32) (signedBytes domain msg) (sig.drop 64)

def hashToken (token : Text) : Text := bytesToHex (c.sha256 (utf8 token)).val

def scopePart (userId : Text) : Text := bytesToHex ((c.sha256 (utf8 userId)).val.take 16)

def parseScopeRecord (data : Bytes) (lunaSigningHex : Text) : Option ScopeRecord := do
  let w ← c.unmarshalScope data
  let sealPublic ← unhex w.sealPublic
  let auth ← unhex w.authPublic
  let sealed ← unhex w.sealedDedup
  let sig ← unhex w.signature
  let signing ← unhex lunaSigningHex
  let scopePublic ← unhex w.scopePublic
  let sealedScopeSecret ← unhex w.sealedScopeSecret
  if sealPublic.length ≠ sealPublicLen ∨ auth.length ≠ sigPublicLen ∨ scopePublic.length ≠ sealPublicLen then none
  else
    let msg := canonical [("luna_id", utf8 w.lunaId), ("scope", utf8 w.scope), ("user_id", utf8 w.userId),
      ("seal_public", sealPublic), ("auth_public", auth), ("created_at", i64Bytes w.createdAt),
      ("scope_public", scopePublic), ("sealed_scope_secret", sealedScopeSecret), ("sealed_dedup", sealed)]
    if lunaVerify c signing "private-scope" msg sig then
      some ⟨w.lunaId, w.scope, w.userId, sealPublic, auth, w.createdAt, scopePublic, sealedScopeSecret, sealed⟩
    else none

/-- What `Store.Get` finds. -/
inductive Got where
  | missing
  | failed
  | data (bytes : Bytes)
  deriving DecidableEq

/-- What the calls read and do not change: the Lunas' signing keys, the rows of packs and records, and the store. A
pack is stored only with a tag that fits the pattern or with none, and a record only with a name and when it is small
enough. -/
structure Outside where
  signingPublic : (account luna : Text) → Option Text
  packScope : (account luna id : Text) → Option Text
  /-- In name order. -/
  recordNames : (account luna kind : Text) → List Text
  get : (account luna : Text) → BlobPath → Got
  packScope_valid : ∀ account luna id scope, packScope account luna id = some scope →
    scope = [] ∨ storageScopePattern scope = true
  record_valid : ∀ account luna kind name data, get account luna (.record kind name) = .data data →
    name ≠ [] ∧ data.length ≤ maxStorageRecordBytes

inductive Failure where
  | store
  | tooLarge (kind name : Text)
  deriving DecidableEq

variable (o : Outside) (s : ReadScope)

/-- `none` where the record is missing or not good. -/
def loadScopeRecord (scope : Text) : Except Failure (Option ScopeRecord) :=
  if storageScopePattern scope = false then .ok none
  else
    match o.signingPublic s.account s.luna with
    | none => .ok none
    | some signingHex =>
      match o.get s.account s.luna (.record "pscopes".toList scope) with
      | .missing => .ok none
      | .failed => .error .store
      | .data data =>
        if maxStorageRecordBytes < data.length then .ok none
        else
          match parseScopeRecord c data signingHex with
          | none => .ok none
          | some rec => if rec.lunaId ≠ s.luna ∨ rec.scope ≠ scope then .ok none else .ok (some rec)

/-! ### Records a caller may see -/

structure StoredRecord where
  name : Text
  data : Bytes
  deriving DecidableEq

def loadRecord (kind name : Text) : Except Failure (Option StoredRecord) :=
  match o.get s.account s.luna (.record kind name) with
  | .missing => .ok none
  | .failed => .error .store
  | .data data => if maxStorageRecordBytes < data.length then .error (.tooLarge kind name) else .ok (some ⟨name, data⟩)

def loadRecords (kind : Text) : Except Failure (List StoredRecord) := do
  let found ← (o.recordNames s.account s.luna kind).mapM (loadRecord o s kind)
  return found.reduceOption

/-- `strconv.Atoi`. -/
def atoi (t : Text) : Option Int := do
  let (negative, digits) := match t with
    | '-' :: ds => (true, ds)
    | '+' :: ds => (false, ds)
    | ds => (false, ds)
  if digits = [] then none
  else
    let n := Js.ofDigits 10 (← Js.digitsOf 10 digits)
    let z : Int := if negative then -n else n
    if -2 ^ 63 ≤ z ∧ z < 2 ^ 63 then some z else none

/-- `<prot>.<version>.<part>`. -/
def parseKeyName (name : Text) : Option (Text × Int × Text) :=
  match name.splitOn '.' with
  | prot :: version :: part :: rest => (atoi version).map fun v => (prot, v, ['.'].intercalate (part :: rest))
  | _ => none

def latestVersion (keyNames : List Text) (prot : Text) : Int :=
  keyNames.foldl (fun latest name =>
    match parseKeyName name with
    | some (p, version, _) => if p = prot ∧ latest < version then version else latest
    | none => latest) 0

/-- The backups the caller reaches; `none` means all. -/
def allowedProtections (keyNames : List Text) : Option (List Text) :=
  match s.kind with
  | .account => none
  | .backup => some [s.value]
  | .user => some (keyNames.filterMap fun name =>
      match parseKeyName name with
      | some (prot, version, part) =>
        if version = latestVersion keyNames prot ∧ part = s.value then some prot else none
      | none => none)

def keepsRecord (allowed : List Text) (kind : Text) (rec : StoredRecord) : Bool :=
  if kind = "keys".toList then
    match parseKeyName rec.name with
    | some (prot, _, _) => allowed.contains prot
    | none => false
  else if kind = "recipients".toList then allowed.contains (rec.name.takeWhile (· ≠ '.'))
  else if kind = "snapshots".toList then
    match c.unmarshalSnapshot rec.data with
    | some (protectionId, _) => allowed.contains protectionId
    | none => false
  else true

def filterRecords (kind : Text) (recs : List StoredRecord) (keyNames : List Text) : List StoredRecord :=
  match allowedProtections s keyNames with
  | none => recs
  | some allowed => recs.filter (keepsRecord c allowed kind)

/-- A user's link shows the record of its own user, every other link none. -/
def filterPrivateScopes (recs : List StoredRecord) : List StoredRecord :=
  match s.kind with
  | .account => recs
  | .backup => []
  | .user =>
    match o.signingPublic s.account s.luna with
    | none => []
    | some signingHex => recs.filter fun rec =>
        match parseScopeRecord c rec.data signingHex with
        | some parsed => scopePart c parsed.userId = s.value
        | none => false

def keepWithPrefix (recs : List StoredRecord) (start : Text) : List StoredRecord :=
  recs.filter fun rec => start.isPrefixOf rec.name

/-- The tags of the tree packs of the snapshots the caller may see. -/
def loadPackScopes : Except Failure (List Text) := do
  let snaps ← loadRecords o s "snapshots".toList
  let keyNames := o.recordNames s.account s.luna "keys".toList
  return (filterRecords c s "snapshots".toList snaps keyNames).filterMap fun snap => do
    let (_, treePackId) ← c.unmarshalSnapshot snap.data
    if treePackId = [] then none
    else
      let scope ← o.packScope s.account s.luna treePackId
      if scope = [] then none else some scope

/-! ### The tables -/

/-- A row of `private_challenges`. No link is the account itself. -/
structure Challenge where
  account : Text
  luna : Text
  link : Option Nat
  expiresAt : Int
  deriving DecidableEq

/-- A row of `private_sessions`. -/
structure Session where
  account : Text
  luna : Text
  scope : Text
  link : Option Nat
  expiresAt : Int
  deriving DecidableEq

/-- A row of `share_links`; `revokedAt` is 0 while the link is on. -/
structure ShareLink where
  tokenHash : Text
  scope : ReadScope
  expiresAt : Int
  revokedAt : Int
  deriving DecidableEq

inductive Call where
  | newPrivateChallenge (random : Bytes32)
  | openPrivateSession (scope challengeHex sigHex : Text) (random : Bytes32)
  | writeRecords (kind token : Text)
  | writePack (packId token : Text)
  deriving DecidableEq

inductive Answer where
  | error (status : Nat) (message : String)
  | challenge (challenge : Text) (expiresAt : Int)
  | token (token : Text) (expiresAt : Int)
  | records (recs : List StoredRecord)
  | pack (bytes : Bytes)
  deriving DecidableEq

/-- A call that was answered, with what it read from outside. -/
structure Entry where
  now : Int
  scope : ReadScope
  link : Option Nat
  outside : Outside
  call : Call
  answer : Answer

/-- `log` is no table of Connect's: it tells, in order, which calls were answered and how. -/
structure State where
  challenges : Table Text Challenge
  sessions : Table Text Session
  links : Table Nat ShareLink
  nextLink : Nat
  packScopeCache : Table Nat (List Text × Int)
  outside : Outside
  log : List Entry

namespace State

/-- `resolveShare`: the live link with this token. -/
def resolveShare (st : State) (token : Text) (now : Int) : Option (ReadScope × Nat) :=
  if token = [] ∨ 64 < token.length then none
  else
    (st.links.select fun _ link =>
      link.tokenHash = hashToken c token ∧ link.revokedAt = 0 ∧ unix now < link.expiresAt).head?.map fun r =>
        (r.2.scope, r.1)

/-- Rows that ran out before now. -/
def cleaned (st : State) (now : Int) : State :=
  { st with
    challenges := st.challenges.keep fun _ row => ¬ row.expiresAt < unix now
    sessions := st.sessions.keep fun _ row => ¬ row.expiresAt < unix now }

def openChallenges (st : State) (s : ReadScope) (link : Option Nat) : Nat :=
  (st.challenges.select fun _ row => row.account = s.account ∧ row.luna = s.luna ∧ row.link = link).length

def newPrivateChallenge (st : State) (s : ReadScope) (link : Option Nat) (random : Bytes32) (now : Int) :
    Answer × State :=
  let challenge := bytesToHex random.val
  let st := st.cleaned now
  if maxPrivateChallenges ≤ st.openChallenges s link then (.error 429 tooManyMessage, st)
  else if st.challenges.get? (hashToken c challenge) ≠ none then (.error 500 privateOpenReadErr, st)
  else
    let expiresAt := unix now + privateChallengeTTL
    (.challenge challenge expiresAt,
      { st with
        challenges := st.challenges.put (hashToken c challenge) ⟨s.account, s.luna, link, expiresAt⟩ })

/-- A backup link never opens a session. -/
def mayOpen (s : ReadScope) (link : Option Nat) : Bool :=
  match link with
  | none => s.kind = .account
  | some _ => s.kind = .user

/-- The caller's own challenge, not expired. -/
def hasChallenge (st : State) (s : ReadScope) (link : Option Nat) (challengeHex : Text) (now : Int) : Bool :=
  match st.challenges.get? (hashToken c challengeHex) with
  | none => false
  | some row => row.account = s.account && row.luna = s.luna && row.link = link && unix now < row.expiresAt

def openMessage (luna scope : Text) (challenge : Bytes) : Bytes :=
  canonical [("luna_id", utf8 luna), ("scope", utf8 scope), ("challenge", challenge)]

/-- The check of the record and of the signature, once the challenge is spent. -/
def openSpent (st : State) (s : ReadScope) (link : Option Nat) (scope : Text) (challenge sig : Bytes)
    (random : Bytes32) (now : Int) : Answer × State :=
  match loadScopeRecord c st.outside s scope with
  | .error _ => (.error 500 privateOpenReadErr, st)
  | .ok none => (.error 403 privateTokenMessage, st)
  | .ok (some rec) =>
    if rec.scope ≠ scope then (.error 403 privateTokenMessage, st)
    else if s.kind = .user ∧ scopePart c rec.userId ≠ s.value then (.error 403 privateTokenMessage, st)
    else if lunaVerify c rec.authPublic "private-open" (openMessage s.luna scope challenge) sig = false then
      (.error 403 privateTokenMessage, st)
    else
      let token := bytesToHex random.val
      let expiresAt := unix now + privateSessionTTL
      if st.sessions.get? (hashToken c token) ≠ none then (.error 500 privateOpenReadErr, st)
      else
        (.token token expiresAt,
          { st with
            sessions := st.sessions.put (hashToken c token) ⟨s.account, s.luna, scope, link, expiresAt⟩ })

def openPrivateSession (st : State) (s : ReadScope) (link : Option Nat) (scope challengeHex sigHex : Text)
    (random : Bytes32) (now : Int) : Answer × State :=
  let challengeHex := c.lower challengeHex
  match unhex challengeHex, unhex sigHex with
  | some challenge, some sig =>
    if challenge.length ≠ 32 then (.error 403 privateTokenMessage, st)
    else if mayOpen s link = false then (.error 403 privateTokenMessage, st)
    else if st.hasChallenge c s link challengeHex now = false then (.error 403 privateTokenMessage, st)
    else
      -- spent here, whether or not the rest of the check passes
      let st := { st with challenges := st.challenges.erase (hashToken c challengeHex) }
      st.openSpent c s link scope challenge sig random now
  | _, _ => (.error 403 privateTokenMessage, st)

/-- The scope a token opens to the caller, or nothing. -/
def privateSessionScope (st : State) (s : ReadScope) (link : Option Nat) (token : Text) (now : Int) : Text :=
  match st.sessions.get? (hashToken c (c.lower token)) with
  | none => []
  | some row =>
    if row.account = s.account ∧ row.luna = s.luna ∧ row.link = link ∧ unix now < row.expiresAt then row.scope
    else []

def browserKinds : List Text :=
  ["snapshots".toList, "keys".toList, "recipients".toList, "self".toList, "pscopes".toList, "psnapshots".toList]

def writeRecords (st : State) (s : ReadScope) (link : Option Nat) (kind token : Text) (now : Int) : Answer :=
  if browserKinds.contains kind = false then .error 404 kindMessage
  else
    let scope := st.privateSessionScope c s link token now
    if kind = "psnapshots".toList ∧ scope = [] then .error 403 privateTokenMessage
    else
      match loadRecords st.outside s kind with
      | .error _ => .error 500 privatePackReadErr
      | .ok recs =>
        let recs := if kind = "pscopes".toList then filterPrivateScopes c st.outside s recs else recs
        let recs := if kind = "psnapshots".toList then keepWithPrefix recs (scope ++ ['.']) else recs
        let keyNames := match s.kind with
          | .account => []
          | _ => st.outside.recordNames s.account s.luna "keys".toList
        .records (filterRecords c s kind recs keyNames)

def rebuildPackScopes (st : State) (s : ReadScope) (id : Nat) (now : Int) : Except Failure (List Text × State) :=
  (loadPackScopes c st.outside s).map fun scopes =>
    (scopes, { st with packScopeCache := st.packScopeCache.put id (scopes, now) })

/-- `allowedPackScopes`, with the cache after it. -/
def allowedPackScopes (st : State) (s : ReadScope) (link : Option Nat) (now : Int) :
    Except Failure (List Text × State) :=
  match link with
  | none => (loadPackScopes c st.outside s).map fun scopes => (scopes, st)
  | some id =>
    match st.packScopeCache.get? id with
    | some (scopes, builtAt) =>
      if now - builtAt < packScopeCacheTTL then .ok (scopes, st) else st.rebuildPackScopes c s id now
    | none => st.rebuildPackScopes c s id now

def packAllowed (st : State) (s : ReadScope) (link : Option Nat) (packScope : Text) (now : Int) : Bool × State :=
  match s.kind with
  | .account => (true, st)
  | _ =>
    match st.allowedPackScopes c s link now with
    | .error _ => (false, st)
    | .ok (scopes, st) => (packScope ≠ [] && scopes.contains packScope, st)

/-- The pack's bytes, once the caller may have them. -/
def sendPack (st : State) (s : ReadScope) (packId : Text) : Answer :=
  match st.outside.get s.account s.luna (.pack packId) with
  | .data bytes => .pack bytes
  | _ => .error 404 packGoneMessage

def writePack (st : State) (s : ReadScope) (link : Option Nat) (packId token : Text) (now : Int) : Answer × State :=
  if storagePackIDPattern packId = false then (.error 404 packGoneMessage, st)
  else
    match st.outside.packScope s.account s.luna packId with
    | none => (.error 404 packGoneMessage, st)
    | some packScope =>
      match loadScopeRecord c st.outside s packScope with
      | .error _ => (.error 500 privatePackReadErr, st)
      | .ok (some _) =>
        if st.privateSessionScope c s link token now ≠ packScope then
          if s.kind = .account then (.error 403 privateTokenMessage, st) else (.error 404 packGoneMessage, st)
        else (st.sendPack s packId, st)
      | .ok none =>
        let (allowed, st) := st.packAllowed c s link packScope now
        if allowed then (st.sendPack s packId, st) else (.error 404 packGoneMessage, st)

end State

/-! ### Requests -/

inductive Caller where
  | account (account luna : Text)
  | share (token : Text)
  deriving DecidableEq

inductive Act where
  | request (caller : Caller) (call : Call)
  | createLink (account luna : Text) (kind : Kind) (value token : Text)
  | revokeLink (account : Text) (id : Nat)
  /-- A purge takes the links of a Luna, or of the whole account. -/
  | purgeLinks (account : Text) (luna : Option Text)
  /-- Whatever else Connect does to Lunas, packs and records. -/
  | other (outside : Outside)

structure Event where
  now : Int
  act : Act

namespace State

/-- Who is calling: the account, if the Luna is on it, or what the live link shares. -/
def resolve (st : State) (caller : Caller) (now : Int) : Option (ReadScope × Option Nat) :=
  match caller with
  | .account account luna =>
    if storageScopePattern luna ∧ (st.outside.signingPublic account luna).isSome then
      some (⟨account, luna, .account, []⟩, none)
    else none
  | .share token => (st.resolveShare c token now).map fun r => (r.1, some r.2)

/-- The call itself. A link that does not share a user's backups gets no challenge and opens nothing. -/
def serve (st : State) (s : ReadScope) (link : Option Nat) (call : Call) (now : Int) : Answer × State :=
  match call with
  | .newPrivateChallenge random =>
    if mayOpen s link = false then (.error 403 privateTokenMessage, st)
    else st.newPrivateChallenge c s link random now
  | .openPrivateSession scope challengeHex sigHex random =>
    if mayOpen s link = false then (.error 403 privateTokenMessage, st)
    else st.openPrivateSession c s link scope challengeHex sigHex random now
  | .writeRecords kind token => (st.writeRecords c s link kind token now, st)
  | .writePack packId token => st.writePack c s link packId token now

def activeLinks (st : State) (account : Text) (now : Int) : Nat :=
  (st.links.select fun _ link =>
    link.scope.account = account ∧ link.revokedAt = 0 ∧ unix now < link.expiresAt).length

def validShare (kind : Kind) (value : Text) : Bool :=
  match kind with
  | .account => false
  | .user => hexPattern 32 value
  | .backup => storageScopePattern value

/-- `ShareLinkHandler.Create`. Ids are not given twice. -/
def createLink (st : State) (account luna : Text) (kind : Kind) (value token : Text) (now : Int) : State :=
  if (st.outside.signingPublic account luna).isNone then st
  else if validShare kind value = false then st
  else if maxActiveShareLinks ≤ st.activeLinks account now then st
  else if st.links.any fun _ link => link.tokenHash = hashToken c token then st
  else
    { st with
      links := st.links.put st.nextLink
        ⟨hashToken c token, ⟨account, luna, kind, value⟩, unix (now + shareLinkTTL), 0⟩
      nextLink := st.nextLink + 1 }

def step (st : State) (e : Event) : State :=
  match e.act with
  | .request caller call =>
    match st.resolve c caller e.now with
    | none => st
    | some (s, link) =>
      let (answer, st') := st.serve c s link call e.now
      { st' with log := st.log ++ [⟨e.now, s, link, st.outside, call, answer⟩] }
  | .createLink account luna kind value token => st.createLink c account luna kind value token e.now
  | .revokeLink account id =>
    { st with
      links := st.links.update fun k link =>
        if k = id ∧ link.scope.account = account ∧ link.revokedAt = 0 then { link with revokedAt := unix e.now }
        else link }
  | .purgeLinks account luna =>
    { st with
      links := st.links.keep fun _ link =>
        ¬ (link.scope.account = account ∧ ∀ l ∈ luna, link.scope.luna = l) }
  | .other outside => { st with outside := outside }

def start (o : Outside) : State := ⟨.empty, .empty, .empty, 0, .empty, o, []⟩

def run (st : State) (events : List Event) : State := events.foldl (step c) st

end State

end LibreServ.PrivateOpen
