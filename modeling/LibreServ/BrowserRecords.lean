import LibreServ.JsValue
import LibreServ.Scopes

/-! What a browser makes of the records a Luna signed (`verifySnapshot` of `shared/ui/lib/cloud/cloudFormat.js`,
`verifyScopeRecord` and `readPrivateSnapshots` of `cloudPrivate.js`). The signed bytes are built again from a
document whose fields can be anything; where the code throws, and where it returns `null`, there is no view. -/

namespace LibreServ.Browser

open Js Cloud

/-! ### Bytes -/

def hexDigit : Point → Option ℕ
  | .lone _ => none
  | .char c => digitOf 16 c

def hexPairs : List ℕ → Option Bytes
  | [] => some []
  | [_] => none
  | a :: b :: ds => (hexPairs ds).map (UInt8.ofNat (16 * a + b) :: ·)

def hexBytes (ps : List Point) : Option Bytes := (ps.mapM hexDigit).bind hexPairs

def hexToBytes : Value → Option Bytes
  | some (.string s) => hexBytes s.points
  | _ => none

def encoded (ps : List Point) : Bytes := (String.ofList (ps.map Point.encoded)).toUTF8.toList

def utf8ToBytes : Value → Option Bytes
  | some (.string s) => some (encoded s.points)
  | _ => none

def verify (c : Crypto) (publicKey : Bytes) (domain : String) (m sig : Bytes) : Bool :=
  match toFixed sigPublicLen publicKey, toFixed sigLen sig with
  | some publicKey, some sig => c.verifySig publicKey (signedBytes domain m) sig
  | _, _ => false

/-! ### Snapshots -/

structure SnapshotView where
  lunaId : Value
  protectionId : Value
  snapshotId : Value
  createdAt : Value
  keyVersion : Value
  treePackId : List Point
  treeHash : Bytes
  details : Bytes

def snapshotSignedBytes (rec : SnapshotView) : Option Bytes := do
  let createdAt ← toBigInt rec.createdAt
  let keyVersion ← toNumber rec.keyVersion
  let lunaId ← utf8ToBytes rec.lunaId
  let protectionId ← utf8ToBytes rec.protectionId
  let snapshotId ← utf8ToBytes rec.snapshotId
  let treePackId ← hexBytes rec.treePackId
  return canonical [("luna_id", lunaId), ("protection_id", protectionId), ("snapshot_id", snapshotId),
    ("created_at", i64Bytes createdAt), ("key_version", be32 (toUint32 keyVersion)),
    ("tree_pack_id", treePackId), ("tree_hash", rec.treeHash), ("meta", rec.details)]

/-- The view of a record, before its signature is looked at. -/
def snapshotView (rec : Value) (lunaId : Text) : Option SnapshotView := do
  let some (.string id) ← property "luna_id" rec | none
  if id ≠ lunaId then none
  else
    let treePackId ← hexToBytes (← property "tree_pack_id" rec)
    let treeHash ← hexToBytes (← property "tree_hash" rec)
    if treePackId.length ≠ 32 ∨ treeHash.length ≠ 32 then none
    else
      let protectionId ← property "protection_id" rec
      let snapshotId ← property "snapshot_id" rec
      let createdAt ← property "created_at" rec
      let keyVersion ← property "key_version" rec
      let details ← hexToBytes (← property "meta" rec)
      return ⟨some (.string id), protectionId, snapshotId, createdAt, keyVersion,
        (bytesToHex treePackId).map .char, treeHash, details⟩

/-- `data` is the document `JSON.parse` reads in the bytes, if it reads one. -/
def verifySnapshot (c : Crypto) (data : Option Doc) (signingPublics : List Bytes) (lunaId : Text)
    (domain : String) : Option SnapshotView := do
  let signed ← data
  let rec_ ← property "record" (some signed)
  let view ← snapshotView rec_ lunaId
  let m ← snapshotSignedBytes view
  let signature ← hexToBytes (← property "signature" (some signed))
  if signingPublics.any fun pub => verify c pub domain m signature then some view else none

/-! ### Scopes -/

structure ScopeView where
  lunaId : Text
  scope : Text
  userId : Text
  sealPublic : Bytes
  authPublic : Bytes
  createdAt : Value
  scopePublic : Bytes
  sealedScopeSecret : Bytes
  sealedDedup : Bytes

/-- `Number.isSafeInteger`. -/
def safeInteger? : Value → Option ℤ
  | some v => v.integer?.bind fun z => if z.natAbs < 2 ^ 53 then some z else none
  | none => none

/-- The view of a record with the bytes its signature has to cover. -/
def scopeView (rec : Value) (lunaId : Text) : Option (ScopeView × Bytes) := do
  let some (.string id) ← property "luna_id" rec | none
  if id ≠ lunaId then none
  else
    let some (.string scope) ← property "scope" rec | none
    let some (.string userId) ← property "user_id" rec | none
    let at_ ← property "created_at" rec
    let createdAt ← safeInteger? at_
    let sealPublic ← hexToBytes (← property "seal_public" rec)
    let authPublic ← hexToBytes (← property "auth_public" rec)
    let scopePublic ← hexToBytes (← property "scope_public" rec)
    let sealedScopeSecret ← hexToBytes (← property "sealed_scope_secret" rec)
    let sealedDedup ← hexToBytes (← property "sealed_dedup" rec)
    if sealPublic.length ≠ sealPublicLen ∨ authPublic.length ≠ sigPublicLen then none
    else if scopePublic.length ≠ sealPublicLen then none
    else
      return (⟨id, scope, userId, sealPublic, authPublic, at_, scopePublic, sealedScopeSecret, sealedDedup⟩,
        canonical [("luna_id", encoded id.points), ("scope", encoded scope.points),
          ("user_id", encoded userId.points), ("seal_public", sealPublic), ("auth_public", authPublic),
          ("created_at", i64Bytes createdAt), ("scope_public", scopePublic),
          ("sealed_scope_secret", sealedScopeSecret), ("sealed_dedup", sealedDedup)])

def verifyScopeRecord (c : Crypto) (data : Option Doc) (signingPublics : List Bytes) (lunaId : Text) :
    Option ScopeView := do
  let signed ← data
  let rec_ ← property "record" (some signed)
  let (view, m) ← scopeView rec_ lunaId
  let sig ← hexToBytes (← property "signature" (some signed))
  if sig.length ≠ sigLen then none
  else if signingPublics.any fun pub => verify c pub "private-scope" m sig then some view
  else none

/-! ### The private snapshots of a scope -/

structure PrivateMeta where
  name : Text
  sourceDrive : Text
  sourcePath : Text
  startedBy : Text
  startedByName : Text

/-- `parse` is `JSON.parse` of the decoded bytes. -/
def openPrivateMeta (c : Crypto) (parse : Bytes → Option Doc) (sealed : Bytes) (sealSecret : SealSecret)
    (lunaId scope : Text) : Option PrivateMeta := do
  let aad := canonical [("purpose", "luna-private-meta-v1".toUTF8.toList), ("luna_id", encoded lunaId.points),
    ("scope", encoded scope.points)]
  let parsed ← parse (← c.openCopy sealSecret aad sealed)
  let some (.string name) ← property "name" (some parsed) | none
  let some (.string sourceDrive) ← property "source_drive" (some parsed) | none
  let some (.string sourcePath) ← property "source_path" (some parsed) | none
  let some (.string startedBy) ← property "started_by" (some parsed) | none
  let some (.string startedByName) ← property "started_by_name" (some parsed) | none
  return ⟨name, sourceDrive, sourcePath, startedBy, startedByName⟩

structure PrivateSnapshot where
  snap : SnapshotView
  details : PrivateMeta

/-- What the loop of `readPrivateSnapshots` pushes for a record of the listing. -/
def readPrivateSnapshot (c : Crypto) (parse : Bytes → Option Doc) (lunaId : Text) (sealSecret : SealSecret)
    (scope : Text) (signingPublics : List Bytes) (name : Text) (data : Option Doc) :
    Option PrivateSnapshot := do
  if ¬ (scope.points ++ [.char '.']) <+: name.points then none
  else
    let snap ← verifySnapshot c data signingPublics lunaId "private-snapshot"
    let some (.string snapshotId) := snap.snapshotId | none
    if name.points ≠ scope.points ++ .char '.' :: snapshotId.points then none
    else
      let details ← openPrivateMeta c parse snap.details sealSecret lunaId scope
      return ⟨snap, details⟩

/-- The comparison `b.createdAt - a.createdAt` leaves `a` before `b`: it is not positive. -/
def notAfter (a b : PrivateSnapshot) : Bool :=
  match toNumber a.snap.createdAt, toNumber b.snap.createdAt with
  | some (some x), some (some y) => ¬ x.less y
  | _, _ => true

def readPrivateSnapshots (c : Crypto) (parse : Bytes → Option Doc) (lunaId : Text)
    (sealSecret : SealSecret) (scope : Text) (psnapshots : List (Text × Option Doc))
    (signingPublics : List Bytes) : List PrivateSnapshot :=
  (psnapshots.filterMap fun r =>
    readPrivateSnapshot c parse lunaId sealSecret scope signingPublics r.1 r.2).mergeSort notAfter

end LibreServ.Browser
