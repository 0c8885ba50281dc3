import LibreServ.CloudCrypto
import LibreServ.Codec
import LibreServ.Table

/-! The format of cloud backups (`backup/cloud/format.rs`): sealed packs with their encrypted index, trees
and signed snapshot records. A pack opens to what was put in it: `openPack` reads back what `finish`
wrote. Where the code panics (a field of 4 GiB or more) the model has no result. -/

namespace LibreServ.Cloud

open List Option Table

variable {entries : List IndexEntry} {b : PackBuilder} {e : IndexEntry}

/-! ### Fields -/

/-- The number a big-endian field holds. -/
def ofBe (bytes : Bytes) : ℕ := bytes.foldl (fun n b => n * 256 + b.toNat) 0

def be64 (n : ℕ) : Bytes := be32 (n / 2 ^ 32) ++ be32 n

def bytesToHex (bytes : Bytes) : List Char :=
  bytes.flatMap fun b => [Nat.digitChar (b.toNat / 16), Nat.digitChar (b.toNat % 16)]

def cutShort : String := "This backup file is cut short. It may be damaged."

def take (n : ℕ) (rest : Bytes) : Except String (Bytes × Bytes) :=
  if rest.length < n then .error cutShort else .ok (rest.take n, rest.drop n)

def takeLen (rest : Bytes) : Except String (ℕ × Bytes) := do
  let (raw, rest) ← take 4 rest
  return (ofBe raw, rest)

def takeId (rest : Bytes) : Except String (Bytes32 × Bytes) :=
  if h : rest.length < 32 then .error cutShort
  else .ok (⟨rest.take 32, List.length_take_of_le (Nat.not_lt.mp h)⟩, rest.drop 32)

def pushLen (out : Bytes) (len : ℕ) : Option Bytes :=
  if len < 2 ^ 32 then some (out ++ be32 len) else none

theorem ofBe_be32 {n : ℕ} (h : n < 2 ^ 32) : ofBe (be32 n) = n := by
  simp only [ofBe, be32, foldl_cons, foldl_nil, UInt8.toNat_ofNat']
  omega

theorem ofBe_be64 {n : ℕ} (h : n < 2 ^ 64) : ofBe (be64 n) = n := by
  simp only [ofBe, be64, be32, cons_append, nil_append, foldl_cons, foldl_nil, UInt8.toNat_ofNat']
  omega

@[simp] theorem length_be32 (n : ℕ) : (be32 n).length = 4 := rfl

@[simp] theorem length_be64 (n : ℕ) : (be64 n).length = 8 := rfl

theorem take_append {n : ℕ} {a : Bytes} (rest : Bytes) (h : a.length = n) :
    take n (a ++ rest) = .ok (a, rest) := by
  have hlong : ¬ (a ++ rest).length < n := by
    rw [length_append]
    omega
  rw [take, if_neg hlong, take_left' h, drop_left' h]

theorem takeLen_append {n : ℕ} (rest : Bytes) (h : n < 2 ^ 32) :
    takeLen (be32 n ++ rest) = .ok (n, rest) := by
  rw [takeLen, take_append rest (length_be32 n)]
  simp only [bind, Except.bind, pure, Except.pure, ofBe_be32 h]

theorem takeId_append (id : Bytes32) (rest : Bytes) : takeId (id.val ++ rest) = .ok (id, rest) := by
  have hlen : id.val.length = 32 := id.property
  have hlong : ¬ (id.val ++ rest).length < 32 := by
    rw [length_append]
    omega
  rw [takeId, dif_neg hlong]
  simp only [take_left' hlen, drop_left' hlen]

/-! ### The index -/

/-- A chunk id, its offset in the pack and its length. -/
structure IndexEntry where
  id : Bytes32
  offset : ℕ
  len : ℕ
  deriving DecidableEq

def encodeEntry (e : IndexEntry) : Bytes := e.id.val ++ be64 e.offset ++ be32 e.len

def encodeIndex (scopeId : Bytes32) (entries : List IndexEntry) : Option Bytes := do
  let out ← pushLen scopeId.val entries.length
  return out ++ entries.flatMap encodeEntry

def decodeEntries : ℕ → Bytes → Except String (List IndexEntry × Bytes)
  | 0, rest => return ([], rest)
  | count + 1, rest => do
    let (id, rest) ← takeId rest
    let (offset, rest) ← take 8 rest
    let (len, rest) ← take 4 rest
    let (entries, rest) ← decodeEntries count rest
    return (⟨id, ofBe offset, ofBe len⟩ :: entries, rest)

def decodeIndex (bytes : Bytes) : Except String (Bytes32 × List IndexEntry) := do
  let (scopeId, rest) ← takeId bytes
  let (count, rest) ← takeLen rest
  let (entries, rest) ← decodeEntries count rest
  if rest ≠ [] then throw "This backup file's index has extra data at the end."
  return (scopeId, entries)

theorem decodeEntries_encode (entries : List IndexEntry) (rest : Bytes)
    (h : ∀ e ∈ entries, e.offset < 2 ^ 64 ∧ e.len < 2 ^ 32) :
    decodeEntries entries.length (entries.flatMap encodeEntry ++ rest) = .ok (entries, rest) := by
  induction entries with
  | nil => rfl
  | cons e entries ih =>
    obtain ⟨hoffset, hlen⟩ := h e mem_cons_self
    have ih := ih fun e' he' => h e' (mem_cons_of_mem e he')
    rw [flatMap_cons, encodeEntry, length_cons, decodeEntries]
    simp only [append_assoc, takeId_append, bind, Except.bind]
    rw [take_append _ (length_be64 e.offset)]
    simp only [take_append _ (length_be32 e.len), ih, pure, Except.pure, ofBe_be64 hoffset, ofBe_be32 hlen]

theorem decodeIndex_encodeIndex {scopeId : Bytes32} {index : Bytes}
    (h : ∀ e ∈ entries, e.offset < 2 ^ 64 ∧ e.len < 2 ^ 32)
    (hindex : encodeIndex scopeId entries = some index) :
    decodeIndex index = .ok (scopeId, entries) := by
  rw [encodeIndex, pushLen] at hindex
  split at hindex
  · rename_i hcount
    have heq : index = scopeId.val ++ (be32 entries.length ++ entries.flatMap encodeEntry) := by
      rw [← append_assoc]
      exact (some.inj hindex).symm
    have hentries := decodeEntries_encode entries [] h
    rw [append_nil] at hentries
    rw [heq, decodeIndex, takeId_append]
    simp only [bind, Except.bind, takeLen_append _ hcount, hentries, ne_eq, not_true_eq_false,
      if_false, pure, Except.pure]
  · cases hindex

/-! ### Packs -/

/-- Plain chunks on their way into one pack. A buffer holds less than 2 ^ 63 bytes, and every entry
lies in it. -/
structure PackBuilder where
  scopeId : Bytes32
  plain : Bytes
  entries : List IndexEntry
  short : plain.length < 2 ^ 63
  fits : ∀ e ∈ entries, e.offset + e.len ≤ plain.length ∧ e.len < 2 ^ 32

namespace PackBuilder

def new (scopeId : Bytes32) : PackBuilder :=
  ⟨scopeId, [], [], by decide, fun _ h => (List.not_mem_nil h).elim⟩

/-- Append one chunk and say where it sits. -/
def add (b : PackBuilder) (id : Bytes32) (chunk : Bytes) : Option (PackBuilder × IndexEntry) :=
  if h : chunk.length < 2 ^ 32 ∧ b.plain.length + chunk.length < 2 ^ 63 then
    let e : IndexEntry := ⟨id, b.plain.length, chunk.length⟩
    some (⟨b.scopeId, b.plain ++ chunk, b.entries ++ [e], by
      rw [List.length_append]
      exact h.2, by
      intro e' he'
      rw [List.length_append]
      rcases List.mem_append.mp he' with he' | he'
      · exact ⟨Nat.le_add_right_of_le (b.fits e' he').1, (b.fits e' he').2⟩
      · rw [List.mem_singleton.mp he']
        exact ⟨Nat.le_refl _, h.1⟩⟩, e)
  else none

end PackBuilder

structure SealedPack where
  id : Bytes32
  bytes : Bytes
  entries : List IndexEntry

def packBodyAad : Bytes := "luna-pack-v1".toUTF8.toList
def packIndexAad : Bytes := "luna-pack-index-v1".toUTF8.toList

/-- Seal the pack under `packKey`, which `wrap` turns into the bytes of the header. -/
def PackBuilder.finish (c : Crypto) (b : PackBuilder) (packKey : Bytes32)
    (indexNonce bodyNonce : Fixed nonceLen) (wrap : Bytes32 → Bytes) : Option SealedPack := do
  let wrapped := wrap packKey
  let index ← encodeIndex b.scopeId b.entries
  let sealedIndex := c.encrypt packKey indexNonce packIndexAad index
  let body := c.encrypt packKey bodyNonce packBodyAad b.plain
  let bytes ← pushLen [1] wrapped.length
  let bytes ← pushLen (bytes ++ wrapped) sealedIndex.length
  let bytes := bytes ++ sealedIndex ++ body
  return ⟨c.packId bytes, bytes, b.entries⟩

/-- A pack opened with its key. -/
structure OpenedPack where
  scopeId : Bytes32
  plain : Bytes
  index : Table Bytes32 (ℕ × ℕ)

/-- The plain bytes of one chunk, if the pack holds it. -/
def OpenedPack.chunk (p : OpenedPack) (id : Bytes32) : Option Bytes :=
  match p.index.get? id with
  | none => none
  | some (offset, len) =>
    if offset + len ≤ p.plain.length then some ((p.plain.drop offset).take len) else none

def insertEntries (size : ℕ) :
    List IndexEntry → Table Bytes32 (ℕ × ℕ) → Except String (Table Bytes32 (ℕ × ℕ))
  | [], map => .ok map
  | e :: entries, map =>
    if size < e.offset + e.len then
      .error "This backup file's index points past the end of its data."
    else insertEntries size entries (map.put e.id (e.offset, e.len))

/-- Check the bytes against the id, unwrap the pack's key, then decrypt the index and the body. -/
def openPack (c : Crypto) (bytes : Bytes) (id : Bytes32) (unwrapKey : Bytes → Except String Bytes32) :
    Except String OpenedPack := do
  if c.packId bytes ≠ id then
    throw "This backup file does not match its fingerprint. It was changed or replaced."
  let (version, rest) ← take 1 bytes
  if version ≠ [1] then
    throw "This backup file uses a format this Luna does not understand."
  let (wrappedLen, rest) ← takeLen rest
  let (wrapped, rest) ← take wrappedLen rest
  let packKey ← unwrapKey wrapped
  let (indexLen, rest) ← takeLen rest
  let (sealedIndex, rest) ← take indexLen rest
  let index ← c.decrypt packKey packIndexAad sealedIndex
  let (scopeId, entries) ← decodeIndex index
  let plain ← c.decrypt packKey packBodyAad rest
  let map ← insertEntries plain.length entries Table.empty
  return ⟨scopeId, plain, map⟩

/-! ### What was put in a pack comes out of it -/

/-- The index an opened pack has for these entries: of two with one id the later counts. -/
def indexOf (entries : List IndexEntry) : Table Bytes32 (ℕ × ℕ) :=
  entries.foldl (fun map e => map.put e.id (e.offset, e.len)) Table.empty

theorem insertEntries_eq {size : ℕ} (map : Table Bytes32 (ℕ × ℕ)) (h : ∀ e ∈ entries, e.offset + e.len ≤ size) :
    insertEntries size entries map =
      .ok (entries.foldl (fun map e => map.put e.id (e.offset, e.len)) map) := by
  induction entries generalizing map with
  | nil => rfl
  | cons e entries ih =>
    have he := h e mem_cons_self
    rw [insertEntries, if_neg (Nat.not_lt.mpr he)]
    exact ih _ fun e' he' => h e' (mem_cons_of_mem e he')

theorem openPack_finish {c : Crypto} {packKey : Bytes32}
    {indexNonce bodyNonce : Fixed nonceLen} {wrap : Bytes32 → Bytes} {pack : SealedPack}
    {unwrapKey : Bytes → Except String Bytes32}
    (hpack : b.finish c packKey indexNonce bodyNonce wrap = some pack)
    (hunwrap : unwrapKey (wrap packKey) = .ok packKey) :
    openPack c pack.bytes pack.id unwrapKey = .ok ⟨b.scopeId, b.plain, indexOf b.entries⟩ := by
  simp only [PackBuilder.finish, pushLen, bind_eq_bind, bind_eq_some_iff,
    ite_none_right_eq_some, some.injEq, pure] at hpack
  obtain ⟨index, hindex, _, ⟨hwrapped, rfl⟩, _, ⟨hsealed, rfl⟩, rfl⟩ := hpack
  have hfields : ∀ e ∈ b.entries, e.offset < 2 ^ 64 ∧ e.len < 2 ^ 32 := by
    intro e he
    obtain ⟨hfit, hlen⟩ := b.fits e he
    have := b.short
    exact ⟨by omega, hlen⟩
  have hentries := insertEntries_eq Table.empty fun e he => (b.fits e he).1
  simp only [openPack, ne_eq, not_true_eq_false, append_assoc]
  have hversion : ∀ rest : Bytes, take 1 ([1] ++ rest) = .ok ([1], rest) := fun rest => take_append rest rfl
  have htake : ∀ a rest : Bytes, take a.length (a ++ rest) = .ok (a, rest) := fun a rest =>
    take_append rest rfl
  simp only [hversion, bind, Except.bind, pure, Except.pure, not_true_eq_false, if_false,
    takeLen_append _ hwrapped, htake, hunwrap, takeLen_append _ hsealed,
    c.decrypt_encrypt, decodeIndex_encodeIndex hfields hindex, hentries]
  rfl

theorem PackBuilder.add_eq_some {b' : PackBuilder} {id : Bytes32} {chunk : Bytes}
    (h : b.add id chunk = some (b', e)) :
    e = ⟨id, b.plain.length, chunk.length⟩ ∧ b'.scopeId = b.scopeId ∧
      b'.plain = b.plain ++ chunk ∧ b'.entries = b.entries ++ [e] := by
  unfold add at h
  split at h
  · cases h
    exact ⟨rfl, rfl, rfl, rfl⟩
  · cases h

/-! ### Trees and records -/

/-- One chunk of a file: its id, and the pack and place where its bytes are stored. -/
structure ChunkRef where
  id : Bytes32
  pack : Bytes32
  offset : ℕ
  len : ℕ
  deriving DecidableEq

structure TreeEntry where
  path : String
  size : ℕ
  mtime : ℤ
  chunks : List ChunkRef
  deriving DecidableEq

structure Tree where
  entries : List TreeEntry
  deriving DecidableEq

structure BackupMeta where
  name : String
  sourceDrive : String
  sourcePath : String
  startedBy : String
  startedByName : String
  deriving DecidableEq

/-- The JSON texts that `serde_json` writes and reads back: trees, metadata, and lists of names. -/
structure Json where
  ofTree : Tree → Bytes
  toTree : Bytes → Option Tree
  ofMeta : BackupMeta → Bytes
  toMeta : Bytes → Option BackupMeta
  ofNames : List String → Bytes
  toTree_ofTree (t : Tree) : toTree (ofTree t) = some t
  toMeta_ofMeta (m : BackupMeta) : toMeta (ofMeta m) = some m

def treeAad : Bytes := "luna-tree-v1".toUTF8.toList
def metaAad : Bytes := "luna-meta-v1".toUTF8.toList

def encryptTree (c : Crypto) (j : Json) (tree : Tree) (key : Bytes32) (nonce : Fixed nonceLen) : Bytes :=
  c.encrypt key nonce treeAad (j.ofTree tree)

def decryptTree (c : Crypto) (j : Json) (sealed : Bytes) (key : Bytes32) : Except String Tree := do
  let json ← c.decrypt key treeAad sealed
  match j.toTree json with
  | some tree => return tree
  | none => throw "This backup's file list could not be read. It may be damaged."

def encryptMeta (c : Crypto) (j : Json) (m : BackupMeta) (key : Bytes32) (nonce : Fixed nonceLen) : Bytes :=
  c.encrypt key nonce metaAad (j.ofMeta m)

def decryptMeta (c : Crypto) (j : Json) (sealed : Bytes) (key : Bytes32) : Except String BackupMeta := do
  let json ← c.decrypt key metaAad sealed
  match j.toMeta json with
  | some m => return m
  | none => throw "This backup's details could not be read. It may be damaged."

/-- One signed record per snapshot. Snapshot ids are hex text in the source; so are the ids in it. -/
structure SnapshotRecord where
  lunaId : String
  protectionId : String
  snapshotId : Bytes
  createdAt : ℤ
  keyVersion : ℕ
  treePackId : Bytes32
  treeHash : Bytes32
  details : Bytes
  deriving DecidableEq

structure SignedRecord where
  record : SnapshotRecord
  signature : SigBytes
  deriving DecidableEq

/-- The big-endian bytes of an `i64`. -/
def i64Bytes (z : ℤ) : Bytes := be64 (z % 2 ^ 64).toNat

def SnapshotRecord.signedBytes (r : SnapshotRecord) : Bytes :=
  canonical [("luna_id", r.lunaId.toUTF8.toList), ("protection_id", r.protectionId.toUTF8.toList),
    ("snapshot_id", r.snapshotId), ("created_at", i64Bytes r.createdAt),
    ("key_version", be32 r.keyVersion), ("tree_pack_id", r.treePackId.val),
    ("tree_hash", r.treeHash.val), ("meta", r.details)]

def SnapshotRecord.sign (c : Crypto) (seed : Bytes32) (r : SnapshotRecord) : SignedRecord :=
  ⟨r, c.sign seed (Cloud.signedBytes "snapshot" r.signedBytes)⟩

/-- Check the signature and return the record only if it holds. -/
def SignedRecord.verify (c : Crypto) (public_ : SigPublic) (r : SignedRecord) :
    Except String SnapshotRecord :=
  if c.verifySig public_ (Cloud.signedBytes "snapshot" r.record.signedBytes) r.signature then
    .ok r.record
  else .error
    "This snapshot's signature does not match. It was changed, or signed by a different key."

/-! ### A stand-in for the texts -/

def fixedCodec (n : ℕ) : Codec (Fixed n) := (Codec.many Codec.byte).via Subtype.val (toFixed n) Crypto.toFixed_val

def refCodec : Codec ChunkRef :=
  ((fixedCodec 32).both ((fixedCodec 32).both (Codec.unary.both Codec.unary))).via
    (fun r => (r.id, r.pack, r.offset, r.len)) (fun r => some ⟨r.1, r.2.1, r.2.2.1, r.2.2.2⟩) fun _ => rfl

def entryCodec : Codec TreeEntry :=
  (Codec.text.both (Codec.unary.both (Codec.int.both (Codec.many refCodec)))).via
    (fun e => (e.path, e.size, e.mtime, e.chunks)) (fun e => some ⟨e.1, e.2.1, e.2.2.1, e.2.2.2⟩) fun _ => rfl

def treeCodec : Codec Tree := (Codec.many entryCodec).via Tree.entries (fun es => some ⟨es⟩) fun _ => rfl

def metaCodec : Codec BackupMeta :=
  (Codec.text.both (Codec.text.both (Codec.text.both (Codec.text.both Codec.text)))).via
    (fun m => (m.name, m.sourceDrive, m.sourcePath, m.startedBy, m.startedByName))
    (fun m => some ⟨m.1, m.2.1, m.2.2.1, m.2.2.2.1, m.2.2.2.2⟩) fun _ => rfl

/-- Concrete runs are evaluated with it. -/
def toyJson : Json where
  ofTree := treeCodec.write
  toTree := treeCodec.read
  ofMeta := metaCodec.write
  toMeta := metaCodec.read
  ofNames := (Codec.many Codec.text).write
  toTree_ofTree := treeCodec.read_write
  toMeta_ofMeta := metaCodec.read_write

end LibreServ.Cloud
