import LibreServ.CloudFormat
import LibreServ.SectionsPool

/-! Sending the records of private scopes (`queue_scope_publish` and `publish_pending_scopes` of
`backup/cloud/ops.rs`, `publish_scope` of `backup/cloud/private.rs`). A transaction that changes a scope's
row or its owner's keys leaves a mark, whose value counts the requests; a pass sends the record of every
marked scope and takes the mark away if its value is still the one the pass had listed. -/

namespace LibreServ.Scopes

open Sections Cloud

/-! ### The tables -/

/-- A row of `cloud_private_scopes`, less its state and its retirement, which a record does not say. -/
structure PrivateScope where
  owner : String
  sealPublic : Bytes
  scopePublic : Bytes
  sealedScopeSecret : Bytes
  dedupKey : Bytes
  createdAt : ℤ
  deriving DecidableEq

/-- What the scopes' records are made from: the rows by scope, and `auth_public` by user. -/
structure Tables where
  rows : Table String PrivateScope
  ownerKeys : Table String Bytes

/-- A scope's row with its owner's public key: what a pass loads. -/
def Tables.view (t : Tables) (scope : String) : Option (PrivateScope × Bytes) :=
  match t.rows.get? scope with
  | none => none
  | some row => (t.ownerKeys.get? row.owner).map fun k => (row, k)

/-! ### The record -/

structure ScopeRecord where
  lunaId : String
  scope : String
  userId : String
  sealPublic : SealPublic
  authPublic : SigPublic
  createdAt : ℤ
  scopePublic : SealPublic
  sealedScopeSecret : Bytes
  sealedDedup : Bytes

structure SignedScope where
  record : ScopeRecord
  signature : SigBytes

/-- The associated data every private seal is bound to. -/
def aad (purpose lunaId scope : String) : Bytes :=
  canonical [("purpose", purpose.toUTF8.toList), ("luna_id", lunaId.toUTF8.toList),
    ("scope", scope.toUTF8.toList)]

def ScopeRecord.signedBytes (r : ScopeRecord) : Bytes :=
  canonical [("luna_id", r.lunaId.toUTF8.toList), ("scope", r.scope.toUTF8.toList),
    ("user_id", r.userId.toUTF8.toList), ("seal_public", r.sealPublic.val),
    ("auth_public", r.authPublic.val), ("created_at", i64Bytes r.createdAt),
    ("scope_public", r.scopePublic.val), ("sealed_scope_secret", r.sealedScopeSecret),
    ("sealed_dedup", r.sealedDedup)]

def ScopeRecord.sign (c : Crypto) (seed : Bytes32) (r : ScopeRecord) : SignedScope :=
  ⟨r, c.sign seed (Cloud.signedBytes "private-scope" r.signedBytes)⟩

def wrongLength : String := "This private backup's key is the wrong length. It may be damaged."

/-- The part of `publish_scope` before the store is called. -/
def buildScope (c : Crypto) (id : Identity) (rand : Bytes) (scope : String) (row : PrivateScope)
    (authPublic : SigPublic) : Except String SignedScope := do
  let some ownerPublic := toFixed sealPublicLen row.sealPublic | throw wrongLength
  let some scopePublic := toFixed sealPublicLen row.scopePublic | throw wrongLength
  let some dedup := toFixed 32 row.dedupKey | throw wrongLength
  let sealedDedup ← c.sealTo rand scopePublic (aad "luna-private-dedup-v1" id.lunaId scope) dedup.val
  let record : ScopeRecord := ⟨id.lunaId, scope, row.owner, ownerPublic, authPublic, row.createdAt,
    scopePublic, row.sealedScopeSecret, sealedDedup⟩
  return record.sign c id.seed

/-! ### The passes -/

/-- The database, the `pscopes` records in the store, and two history variables that nothing reads: the
number of requests made for each scope, and what each scope's row and owner key have been since the last
of them. -/
structure State where
  tables : Tables
  identity : Option Identity
  marks : Table String UInt64
  records : Table String SignedScope
  requests : String → ℕ
  since : String → List (PrivateScope × Bytes)

/-- A transaction: the tables it leaves and the scopes it asks to be sent. -/
structure Change where
  after : Tables
  scopes : List String

/-- What the outside decides at a section: whether a query or the store fails, and the random bytes. -/
structure Input where
  dbFails : Bool
  storeFails : Bool
  rand : Bytes

inductive Label where
  | change (c : Change)
  | list
  | identity
  | load (scope : String)
  | draw
  | send (scope : String)
  | clear (scope : String) (mark : UInt64)

/-- The counter of a mark starts at one and wraps. -/
def nextMark (mark : Option UInt64) : UInt64 := mark.getD 0 + 1

def queueScopePublish (scopes : List String) (marks : Table String UInt64) : Table String UInt64 :=
  scopes.foldl (fun t scope => t.put scope (nextMark (t.get? scope))) marks

/-- The transaction as one section. -/
def commit (c : Change) (s : State) : State :=
  { s with
    tables := c.after
    marks := queueScopePublish c.scopes s.marks
    requests := fun scope => s.requests scope + c.scopes.count scope
    since := fun scope =>
      if scope ∈ c.scopes then (c.after.view scope).toList
      else s.since scope ++ (c.after.view scope).toList }

structure ScopePublishReport where
  published : ℕ
  failed : ℕ
  deriving DecidableEq

abbrev Pass := Prog Label Input State String

/-- The marks, in the order of their keys. -/
def listMarks : Pass (Option (List (String × UInt64))) :=
  Prog.look .list fun i s =>
    if i.dbFails then none else some (s.marks.rows.insertionSort fun a b => a.1 ≤ b.1)

/-- Only a mark with the value that was listed is removed. -/
def clear (scope : String) (mark : UInt64) : Pass Unit :=
  Prog.act (.clear scope mark) fun i s =>
    ((), if i.dbFails = false ∧ s.marks.get? scope = some mark then
      { s with marks := s.marks.erase scope } else s)

/-- Build the record and put it in the store; says whether it is there. -/
def publishScope (c : Crypto) (id : Identity) (scope : String) (row : PrivateScope)
    (authPublic : SigPublic) : Pass Bool := do
  let rand ← Prog.look .draw fun i _ => i.rand
  match buildScope c id rand scope row authPublic with
  | .error _ => return false
  | .ok record =>
    Prog.act (.send scope) fun i s =>
      if i.storeFails then (false, s) else (true, { s with records := s.records.put scope record })

/-- One turn of the loop of `publish_pending_scopes`. -/
def publishPending (c : Crypto) (id : Identity) (scope : String) (mark : UInt64)
    (report : ScopePublishReport) : Pass ScopePublishReport := do
  let loaded ← Prog.look (.load scope) fun i s =>
    if i.dbFails then none else some (s.tables.view scope)
  match loaded with
  | none => return { report with failed := report.failed + 1 }
  | some none =>
    clear scope mark
    return report
  | some (some (row, key)) =>
    match toFixed sigPublicLen key with
    | none => return { report with failed := report.failed + 1 }
    | some authPublic =>
      let sent ← publishScope c id scope row authPublic
      if sent then
        clear scope mark
        return { report with published := report.published + 1 }
      else
        return { report with failed := report.failed + 1 }

def publishEach (c : Crypto) (id : Identity) :
    List (String × UInt64) → ScopePublishReport → Pass ScopePublishReport
  | [], report => return report
  | (scope, mark) :: rest, report => do
    let report ← publishPending c id scope mark report
    publishEach c id rest report

def publishPendingScopes (c : Crypto) : Pass ScopePublishReport := do
  match ← listMarks with
  | none => return ⟨0, 1⟩
  | some pending =>
    if pending = [] then
      return ⟨0, 0⟩
    else
      match ← Prog.look .identity (fun i s => if i.dbFails then none else s.identity) with
      | none => return ⟨0, pending.length⟩
      | some id => publishEach c id pending ⟨0, 0⟩

end LibreServ.Scopes
