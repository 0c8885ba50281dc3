import LibreServ.CloudRun
import LibreServ.Scopes

/-! Setting a recovery phrase (`set_phrase` of `api/cloud_phrase.rs`) beside the runs that use the phrase's
keys. A request reads the user's keys and checks the proof against them, then the lock is dropped for the
identity to be made, and a transaction saves the new keys, going by what was read. Between the two anything
can happen: other requests, runs that make key versions and private scopes, passes that remove old scopes. -/

namespace LibreServ.Phrase

open Cloud

/-! ### The tables -/

inductive ScopeState where
  | active
  | history
  | oldPhrase
  deriving DecidableEq

/-- A row of `cloud_private_scopes`. -/
structure ScopeRow extends Scopes.PrivateScope where
  state : ScopeState
  retireAfter : ℤ
  deriving DecidableEq

/-- The previous copy of a scope's secret, which the old phrase opens. -/
structure KeptScopeSecret where
  sealPublic : Bytes
  sealedScopeSecret : Bytes
  expiresAt : ℤ

/-- What a request showed of the keys it replaces. -/
inductive Proven where
  | nothing
  | oldPhrase (authPublic : Bytes)
  | password
  deriving DecidableEq

/-- The proof is good for these keys. -/
def Proven.Of (p : Proven) (keys : UserKeys) : Prop := p = .password ∨ p = .oldPhrase keys.authPublic

/-! ### The request -/

inductive ProofKind where
  | oldSignature
  | password
  | unknown
  deriving DecidableEq

/-- The body of a request, with its base64 read. -/
structure SetBody where
  sealPublic : SealPublic
  authPublic : SigPublic
  selfSealed : Bytes
  proof : Option ProofKind
  exposed : Option Bool
  signature : Option SigBytes
  password : Option String
  rescoped : List (String × Bytes)
  words : Option ℕ

/-- What the rest of Luna answers while the proof is checked: the user's outstanding challenge, the limit on
tries, and the account's password. -/
structure ProofInput where
  challenge : Option Bytes32
  allowed : Bool
  passwordRight : String → Bool
  now : ℤ

/-- A request whose proof was checked against the keys it read, and which has not saved yet. -/
structure Accepted where
  user : String
  body : SetBody
  old : Option UserKeys
  exposed : Bool
  now : ℤ
  proven : Proven
  proven_old : ∀ keys, old = some keys → proven.Of keys
  proven_none : old = none → proven = .nothing

def badKeys : String := "The recovery phrase keys could not be read. Try setting the phrase again."

def proofRefused : String :=
  "Luna could not confirm it is you. Check your old phrase or password and try again."

def sealedScopeSecretLen : ℕ := 32 + 1088 + nonceLen + sealSecretLen + tagLen

/-- The checks on the body alone. -/
def checkBody (c : Crypto) (body : SetBody) : Except String Unit :=
  if body.words ≠ none ∧ body.words ≠ some 12 ∧ body.words ≠ some 24 then
    .error "A recovery phrase has 12 or 24 words."
  else if ¬ (body.rescoped.map Prod.fst).Nodup ∨ body.rescoped.any fun r => r.2.length ≠ sealedScopeSecretLen then
    .error badKeys
  else if body.rescoped ≠ [] ∧ body.proof ≠ some .oldSignature then
    .error "Luna can only re-seal private backups when you prove the old phrase."
  else if body.selfSealed = [] then .error badKeys
  else if !c.checkPublicKey body.sealPublic then .error badKeys
  else .ok ()

def rescopedHash (c : Crypto) (rescoped : List (String × Bytes)) : Bytes32 :=
  c.packId (canonical ((rescoped.insertionSort fun a b => a.1 ≤ b.1).flatMap fun r =>
    [("scope", r.1.toUTF8.toList), ("sealed_scope_secret", r.2)]))

/-- What the old phrase signs to replace itself. -/
def replaceMessage (c : Crypto) (challenge : Bytes32) (body : SetBody) (exposed : Bool) : Bytes :=
  canonical [("challenge", challenge.val), ("seal_public", body.sealPublic.val),
    ("auth_public", body.authPublic.val), ("self_sealed_hash", (c.packId body.selfSealed).val),
    ("exposed", [if exposed then 1 else 0]), ("rescoped_hash", (rescopedHash c body.rescoped).val)]

/-- The proof of a request that replaces `old`. -/
def prove (c : Crypto) (body : SetBody) (old : UserKeys) (i : ProofInput) : Except String (Bool × Proven) :=
  match body.exposed with
  | none => .error "Say whether someone else could have your old phrase."
  | some exposed =>
    match body.proof with
    | some .oldSignature =>
      match body.signature, i.challenge, toFixed sigPublicLen old.authPublic with
      | none, _, _ => .error proofRefused
      | _, none, _ => .error proofRefused
      | _, _, none => .error badKeys
      | some signature, some challenge, some oldAuth =>
        if c.verifySig oldAuth (signedBytes "phrase-replace" (replaceMessage c challenge body exposed))
            signature then
          .ok (exposed, .oldPhrase old.authPublic)
        else .error proofRefused
    | some .password =>
      if !i.allowed then .error "Too many tries. Wait a few minutes and try again."
      else if i.passwordRight (body.password.getD "") then .ok (exposed, .password)
      else .error proofRefused
    | _ => .error proofRefused

theorem of_prove {c : Crypto} {body : SetBody} {old : UserKeys} {i : ProofInput} {r : Bool × Proven}
    (h : prove c body old i = .ok r) : r.2.Of old := by
  unfold prove at h
  split at h
  · cases h
  split at h
  · split at h
    · cases h
    · cases h
    · cases h
    · split at h
      · cases h
        exact .inr rfl
      · cases h
  · split at h
    · cases h
    · split at h
      · cases h
        exact .inl rfl
      · cases h
  · cases h

/-- The first half of `set_phrase`: the checks, the read of the keys, and the proof against them. -/
def accept (c : Crypto) (user : String) (body : SetBody) (i : ProofInput) (db : Db) : Except String Accepted :=
  match checkBody c body with
  | .error e => .error e
  | .ok () =>
    match db.userKeys.get? user with
    | none => .ok ⟨user, body, none, false, i.now, .nothing, fun _ h => (nomatch h), fun _ => rfl⟩
    | some old =>
      match h : prove c body old i with
      | .error e => .error e
      | .ok (exposed, proven) =>
        .ok ⟨user, body, some old, exposed, i.now, proven,
          fun _ hkeys => Option.some.inj hkeys ▸ of_prove h, fun hnone => nomatch hnone⟩

/-! ### The scopes -/

def oldPhraseGrace : ℤ := 30 * 24 * 60 * 60

/-- Oldest first. -/
def listPrivateScopes (scopes : Table String ScopeRow) (owner : String) : List (String × ScopeRow) :=
  (scopes.select fun _ row => row.owner = owner).insertionSort fun a b =>
    a.2.createdAt < b.2.createdAt ∨ (a.2.createdAt = b.2.createdAt ∧ a.1 ≤ b.1)

/-- The owner's newest scope that is still active. -/
def activePrivateScope (scopes : Table String ScopeRow) (owner : String) : Option (String × ScopeRow) :=
  ((scopes.select fun _ row => row.owner = owner ∧ row.state = .active).insertionSort fun a b =>
    b.2.createdAt ≤ a.2.createdAt).head?

/-- A scope's public name: the first half of its id, as hex. -/
def scopeText (scopeId : Bytes32) : String := String.ofList (bytesToHex (scopeName scopeId))

/-- The owner's active scope, made if missing with the dedup key and the key pair that were drawn. -/
def ensureScope (c : Crypto) (lunaId owner : String) (ownerPublic : SealPublic) (now : ℤ) (dedup : Bytes32)
    (secret : SealSecret) (rand : Bytes) (scopes : Table String ScopeRow) :
    Except String ((String × ScopeRow) × Table String ScopeRow) :=
  match activePrivateScope scopes owner with
  | some found => .ok (found, scopes)
  | none =>
    let scope := scopeText (scopeIdOf c dedup)
    match c.sealTo rand ownerPublic (Scopes.aad "luna-private-scope-secret-v1" lunaId scope) secret.val with
    | .error e => .error e
    | .ok sealed =>
      let made : ScopeRow := ⟨⟨owner, ownerPublic.val, (c.sealPublic secret).val, sealed, dedup.val, now⟩,
        .active, 0⟩
      match scopes.get? scope with
      | some _ => .error "UNIQUE constraint failed: cloud_private_scopes.scope"
      | none => .ok ((scope, made), scopes.put scope made)

/-- What a replacement proven by the old phrase does to one scope: re-sealed if the browser sent it, else
retired with the grace. -/
def settleRow (new : SealPublic) (exposed : Bool) (now : ℤ) (fresh : Option Bytes) (row : ScopeRow) : ScopeRow :=
  match row.state, fresh with
  | .oldPhrase, none => row
  | state, some sealed =>
    let row := { row with sealPublic := new.val, sealedScopeSecret := sealed }
    if exposed ∧ state = .active then { row with state := .history, retireAfter := 0 } else row
  | _, none => { row with state := .oldPhrase, retireAfter := now + oldPhraseGrace }

/-- The copy kept for the old phrase when a scope is re-sealed. -/
def keptRow (new : SealPublic) (exposed : Bool) (now : ℤ) (row : ScopeRow) : Option KeptScopeSecret :=
  if !exposed ∧ row.sealPublic ≠ new.val then
    some ⟨row.sealPublic, row.sealedScopeSecret, now + oldPhraseGrace⟩
  else none

def clearKept (scopes : Table String ScopeRow) (owner : String) (kept : Table String KeptScopeSecret) :
    Table String KeptScopeSecret :=
  kept.keep fun scope _ => (scopes.get? scope).all fun row => row.owner ≠ owner

/-- The tables after `settle_scopes`, and the scopes whose records need publishing again. -/
def settleScopes (owner : String) (new : SealPublic) (rescoped : List (String × Bytes)) (exposed : Bool) (now : ℤ)
    (scopes : Table String ScopeRow) (kept : Table String KeptScopeSecret) :
    Except String (Table String ScopeRow × Table String KeptScopeSecret × List String) :=
  if rescoped.any fun r => (scopes.get? r.1).all fun row => row.owner ≠ owner then
    .error "A private backup in the re-seal list is not this person's."
  else
    let listed := listPrivateScopes scopes owner
    let resealed := listed.filter fun r => (rescoped.lookup r.1).isSome
    let kept := if exposed then clearKept scopes owner kept else kept
    .ok (scopes.update fun scope row =>
        if row.owner = owner then settleRow new exposed now (rescoped.lookup scope) row else row,
      resealed.foldl (fun t r => match keptRow new exposed now r.2 with
        | some copy => t.put r.1 copy
        | none => t) kept,
      resealed.map Prod.fst)

/-- A replacement proven by the password keeps no scope. -/
def retireScopesWithoutKey (owner : String) (exposed : Bool) (now : ℤ) (scopes : Table String ScopeRow) :
    Table String ScopeRow :=
  scopes.update fun _ row =>
    if row.owner = owner ∧ row.state ≠ .oldPhrase then
      { row with state := .oldPhrase, retireAfter := if exposed then now else now + oldPhraseGrace }
    else row

def retireOldPhraseNow (owner : String) (now : ℤ) (scopes : Table String ScopeRow) : Table String ScopeRow :=
  scopes.update fun _ row =>
    if row.owner = owner ∧ row.state = .oldPhrase then { row with retireAfter := now } else row

/-! ### The system -/

/-- Keys that a save replaced, and what the request had proven. -/
structure Replaced where
  before : UserKeys
  proven : Proven

/-- The tables, the requests between their two halves, the scopes that passes have found due, and, as a
history variable that nothing reads, the replacements made. -/
structure State where
  db : Db
  scopes : Table String ScopeRow
  kept : Table String KeptScopeSecret
  marks : Table String UInt64
  requests : List Accepted
  due : List String
  replaced : List Replaced

/-- The backups whose newest key version names the user as a reader. -/
def currentBackupsOf (db : Db) (user : String) : List String :=
  let versions := readerVersions db user
  (versions.map Prod.fst).dedup.filter fun backup =>
    ((versions.filter fun v => v.1 = backup).map Prod.snd).max? = (db.latestBackupKey backup).map BackupKey.version

/-- The transaction. Whether the phrase is a first one was decided when the request read the keys. -/
def saveTx (a : Accepted) (s : State) : Except String State := do
  let new := a.body.sealPublic
  let db := { s.db with userKeys := s.db.userKeys.put a.user ⟨new.val, a.body.authPublic.val, a.body.selfSealed⟩ }
  match a.old with
  | none => return { s with db := db }
  | some _ =>
    let marked := if a.exposed then currentBackupsOf db a.user else []
    let db := replaceReader db a.user new.val
    let db ← queueReseal { db with rotate := db.rotate ∪ marked.toFinset } a.user
    if a.body.proof = some .oldSignature then
      let (scopes, kept, resealed) ←
        settleScopes a.user new a.body.rescoped a.exposed a.now s.scopes s.kept
      return { s with
        db := db
        scopes := scopes
        kept := kept
        marks := Scopes.queueScopePublish resealed s.marks }
    else
      let kept := if a.exposed then clearKept s.scopes a.user s.kept else s.kept
      let scopes := retireScopesWithoutKey a.user a.exposed a.now s.scopes
      return { s with
        db := db
        scopes := if a.exposed then retireOldPhraseNow a.user a.now scopes else scopes
        kept := kept }

/-- The second half of `set_phrase`. -/
def save (a : Accepted) (s : State) : Except String State :=
  if s.db.userKeys.any fun user keys => user ≠ a.user ∧ keys.sealPublic = a.body.sealPublic.val then
    .error "This recovery key is already used by another account. Set up the recovery phrase again."
  else
    match saveTx a s with
    | .error _ => .error "Could not save your recovery phrase. Try again."
    | .ok s' => .ok { s' with
        replaced := s.replaced ++ ((s.db.userKeys.get? a.user).map fun keys => ⟨keys, a.proven⟩).toList }

def noPhrase : String :=
  "This private item's owner hasn't set up a recovery phrase yet, so its cloud backup can't start."

/-- `prepare` of a private run, as far as it changes the tables: the scope is made before the run row is
opened, and stays when that fails. -/
def preparePrivate (c : Crypto) (protection : String) (now : ℤ) (i : Input) (secret : SealSecret) (s : State) :
    Except String String × State :=
  match s.db.protections.get? protection with
  | none => (.error "This backup no longer exists.", s)
  | some row =>
    if row.privateOwner = "\x00" ∨ (s.db.users.get? row.privateOwner).isNone then
      (.error "This private item's owner no longer has an account. An Admin can remove its backups.", s)
    else
      match s.db.userKeys.get? row.privateOwner with
      | none => (.error noPhrase, s)
      | some keys =>
        match toFixed sealPublicLen keys.sealPublic, toFixed sigPublicLen keys.authPublic, s.db.identity with
        | none, _, _ => (.error noPhrase, s)
        | some ownerPublic, authPublic, identity =>
          if !c.checkPublicKey ownerPublic then (.error noPhrase, s)
          else
            match authPublic, identity with
            | none, _ => (.error "This private backup's key is damaged.", s)
            | _, none => (.error "Set up cloud backup on this Luna before running a backup.", s)
            | some _, some id =>
              match ensureScope c id.lunaId row.privateOwner ownerPublic now (i.key 0) secret (i.rand 0)
                  s.scopes with
              | .error e => (.error e, s)
              | .ok ((scope, made), scopes) =>
                match toFixed 32 made.dedupKey with
                | none => (.error "This private backup's key is damaged.", { s with scopes := scopes })
                | some dedup =>
                  match s.db.startRun i.id protection (scopeName (scopeIdOf c dedup)) now with
                  | .error e => (.error e, { s with scopes := scopes })
                  | .ok db => (.ok scope, { s with db := db, scopes := scopes })

inductive Event where
  /-- The first half of a request. -/
  | request (user : String) (body : SetBody) (i : ProofInput)
  /-- `ensure_identity`, for whichever request comes first. -/
  | mint (id : Identity)
  /-- A request that stops before its save. -/
  | drop (k : ℕ)
  /-- The second half of a request. -/
  | save (k : ℕ)
  /-- `prepare` of a shared run. -/
  | prepare (protection : String) (now : ℤ) (i : Input)
  /-- `prepare` of a private run. -/
  | preparePrivate (protection : String) (now : ℤ) (i : Input) (secret : SealSecret)
  /-- `retire_old_phrases` clears expired copies and lists the scopes whose wait is over. -/
  | listDue (now : ℤ)
  /-- It removes a listed scope, once no pack of it is left. -/
  | retire (scope : String)

def exec (c : Crypto) (j : Json) : Event → State → State
  | .request user body i, s =>
    match accept c user body i s.db with
    | .ok a => { s with requests := s.requests ++ [a] }
    | .error _ => s
  | .mint id, s => if s.db.identity.isSome then s else { s with db := { s.db with identity := some id } }
  | .drop k, s => { s with requests := s.requests.eraseIdx k }
  | .save k, s =>
    match s.requests[k]? with
    | none => s
    | some a =>
      match save a s with
      | .ok s' => { s' with requests := s.requests.eraseIdx k }
      | .error _ => { s with requests := s.requests.eraseIdx k }
  | .prepare protection now i, s => { s with db := (prepare c j protection now i s.db).2 }
  | .preparePrivate protection now i secret, s => (preparePrivate c protection now i secret s).2
  | .listDue now, s =>
    { s with
      kept := s.kept.keep fun _ copy => now < copy.expiresAt
      due := s.due ++ ((s.scopes.select fun _ row =>
        row.state = .oldPhrase ∧ 0 < row.retireAfter ∧ row.retireAfter ≤ now).map Prod.fst) }
  | .retire scope, s =>
    if scope ∈ s.due then { s with kept := s.kept.erase scope, scopes := s.scopes.erase scope } else s

def run (c : Crypto) (j : Json) (es : List Event) (s : State) : State := es.foldl (fun s e => exec c j e s) s

end LibreServ.Phrase
