import LibreServ.BrowserRecords
import LibreServ.CloudSigned

/-! What a view shows against what was signed. The signed bytes fix every field's bytes, so a document that
carries a record's signature differs from it only where two values of a field have the same bytes: a number
written as a text, a number that the setters of a `DataView` wrap or cut, a surrogate without its partner. A
snapshot whose fields are of none of these kinds is shown as it was signed, and one whose fields are is shown
otherwise for some record; the scopes' reader lets only the last kind through. -/

namespace LibreServ.Browser

open Js Cloud List Fixed

variable {r : SnapshotRecord} {m details bytes : Bytes}

/-! ### Bytes decide values -/

theorem field_append_inj {name : String} {v w x y : Bytes} (hv : v.length < 2 ^ 32)
    (hw : w.length < 2 ^ 32) (h : field (name, v) ++ x = field (name, w) ++ y) : v = w ∧ x = y := by
  simp only [field, append_assoc, append_cancel_left_eq] at h
  obtain ⟨hlen, hrest⟩ := append_inj h rfl
  exact append_inj hrest (be32_inj hv hw hlen)

theorem canonical_inj {fs gs : List (String × Bytes)} (hnames : fs.map Prod.fst = gs.map Prod.fst)
    (hfs : ∀ f ∈ fs, f.2.length < 2 ^ 32) (hgs : ∀ g ∈ gs, g.2.length < 2 ^ 32)
    (h : canonical fs = canonical gs) : fs = gs := by
  rw [canonical_eq_flatMap, canonical_eq_flatMap] at h
  induction fs generalizing gs with
  | nil => exact (map_eq_nil_iff.mp hnames.symm).symm
  | cons f fs ih =>
    cases gs with
    | nil => cases hnames
    | cons g gs =>
      obtain ⟨name, v⟩ := f
      obtain ⟨name', w⟩ := g
      obtain ⟨hname, htail⟩ := cons.inj hnames
      have hname : name = name' := hname
      subst hname
      have hvlen : v.length < 2 ^ 32 := hfs _ mem_cons_self
      have hwlen : w.length < 2 ^ 32 := hgs _ mem_cons_self
      obtain ⟨hvalue, hrest⟩ := field_append_inj hvlen hwlen h
      rw [hvalue, ih htail (fun f hf => hfs f (mem_cons_of_mem _ hf))
        (fun g hg => hgs g (mem_cons_of_mem _ hg)) hrest]

theorem hexDigit_digitChar {n : ℕ} (h : n < 16) : hexDigit (.char n.digitChar) = some n := by
  revert n
  decide

theorem hexBytes_bytesToHex (bytes : Bytes) : hexBytes ((bytesToHex bytes).map .char) = some bytes := by
  have hdigits : ((bytesToHex bytes).map Point.char).mapM hexDigit
      = some (bytes.flatMap fun b => [b.toNat / 16, b.toNat % 16]) := by
    induction bytes with
    | nil => rfl
    | cons b bytes ih =>
      have hhigh : b.toNat / 16 < 16 := by
        have := b.toNat_lt
        omega
      have hlow : b.toNat % 16 < 16 := Nat.mod_lt _ (by decide)
      have ih : (map Point.char (bytes.flatMap fun b =>
          [Nat.digitChar (b.toNat / 16), Nat.digitChar (b.toNat % 16)])).mapM hexDigit = _ := ih
      simp only [bytesToHex, flatMap_cons, map_cons, cons_append, nil_append,
        mapM_cons, hexDigit_digitChar hhigh, hexDigit_digitChar hlow, ih]
      rfl
  rw [hexBytes, hdigits, Option.bind_some]
  clear hdigits
  induction bytes with
  | nil => rfl
  | cons b bytes ih =>
    have hbyte : UInt8.ofNat (16 * (b.toNat / 16) + b.toNat % 16) = b := by
      rw [Nat.div_add_mod, UInt8.ofNat_toNat]
    rw [flatMap_cons, cons_append, cons_append, nil_append, hexPairs, ih, hbyte]
    rfl

theorem length_bytesToHex (bytes : Bytes) : (bytesToHex bytes).length = 2 * bytes.length := by
  induction bytes with
  | nil => rfl
  | cons b bytes ih =>
    have hcons : bytesToHex (b :: bytes)
        = [Nat.digitChar (b.toNat / 16), Nat.digitChar (b.toNat % 16)] ++ bytesToHex bytes := rfl
    rw [hcons, length_append]
    simp only [length_cons, length_nil]
    omega

def hexText {n : ℕ} (bytes : Fixed n) (h : 2 * n < 2 ^ 30) : Text :=
  ⟨(bytesToHex bytes.val).map .char, isChain_char _, by
    rwa [List.length_map, length_bytesToHex, bytes.property]⟩

/-- The text is the string's. -/
def Spells (t : Text) (s : String) : Prop := t.points = pointsOf s

theorem Spells.wellFormed {t : Text} {s : String} (h : Spells t s) : t.WellFormed := by
  intro p hp
  rw [h, pointsOf, mem_map] at hp
  obtain ⟨ch, _, rfl⟩ := hp
  exact ⟨ch, rfl⟩

theorem spells_ofList {t : Text} (h : t.WellFormed) :
    Spells t (String.ofList (t.points.map Point.encoded)) := by
  have hself : ∀ p ∈ t.points, Point.char p.encoded = p := by
    intro p hp
    obtain ⟨ch, rfl⟩ := h p hp
    rfl
  rw [Spells, pointsOf, String.toList_ofList, map_map]
  exact ((map_congr_left hself).trans (map_id _)).symm

theorem length_encoded_lt (t : Text) : (encoded t.points).length < 2 ^ 32 := by
  have hfour : ∀ cs : List Char, (cs.flatMap String.utf8EncodeChar).length ≤ 4 * cs.length := by
    intro cs
    induction cs with
    | nil => exact le_refl 0
    | cons ch cs ih =>
      have hsize := ch.utf8Size_le_four
      rw [flatMap_cons, length_append, String.length_utf8EncodeChar, length_cons]
      omega
  have hlen := hfour (t.points.map Point.encoded)
  have hshort := t.short
  rw [length_map] at hlen
  rw [encoded, toUTF8_toList, String.toList_ofList]
  omega

/-- A well-formed text is decided by its bytes. -/
theorem spells_of_encoded {t : Text} {s : String} (h : t.WellFormed)
    (hbytes : encoded t.points = s.toUTF8.toList) : Spells t s := by
  have hs : String.ofList (t.points.map Point.encoded) = s := toUTF8_toList_inj hbytes
  exact hs ▸ spells_ofList h

/-! ### What is signed and what is shown -/

/-- The ranges of the record's types. A field of 4 GiB stops the signing. -/
structure Fits (r : SnapshotRecord) : Prop where
  lunaId : r.lunaId.toUTF8.toList.length < 2 ^ 32
  protectionId : r.protectionId.toUTF8.toList.length < 2 ^ 32
  snapshotId : r.snapshotId.length < 2 ^ 32
  createdAt : -2 ^ 63 ≤ r.createdAt ∧ r.createdAt < 2 ^ 63
  keyVersion : r.keyVersion < 2 ^ 32
  details : r.details.length < 2 ^ 32

/-- The document's signature is this one. -/
def Carries (data : Doc) (signature : SigBytes) : Prop :=
  ∃ v, property "signature" (some data) = some v ∧ hexToBytes v = some signature.val

/-- The view says what the record says. -/
structure Shows (view : SnapshotView) (r : SnapshotRecord) : Prop where
  lunaId : ∃ t, view.lunaId = some (.string t) ∧ Spells t r.lunaId
  protectionId : ∃ t, view.protectionId = some (.string t) ∧ Spells t r.protectionId
  snapshotId : ∃ t, view.snapshotId = some (.string t) ∧ t.WellFormed ∧ encoded t.points = r.snapshotId
  createdAt : ∃ v, view.createdAt = some v ∧ v.integer? = some r.createdAt
  keyVersion : ∃ v, view.keyVersion = some v ∧ v.integer? = some (r.keyVersion : ℤ)
  treePackId : view.treePackId = (bytesToHex r.treePackId.val).map .char
  treeHash : view.treeHash = r.treeHash.val
  details : view.details = r.details

/-- Whatever record was signed, a document of this `record` field with its signature shows nothing or the
record. -/
def ShowsSigned (c : Crypto) (seed : Bytes32) (domain : String) (rec : Value) : Prop :=
  ∀ (data : Doc) (r : SnapshotRecord) (lunaId : Text) (view : SnapshotView), Fits r →
    Spells lunaId r.lunaId → property "record" (some data) = some rec →
    Carries data (c.sign seed (signedBytes domain r.signedBytes)) →
    verifySnapshot c (some data) [(c.sigPublic seed).val] lunaId domain = some view → Shows view r

/-- A signature that verifies over `m` was made over `m`. -/
def Binds (c : Crypto) (seed : Bytes32) (m : Bytes) : Prop :=
  ∀ m', c.verifySig (c.sigPublic seed) m (c.sign seed m') = true → m' = m

/-! ### Fields the code can read -/

def IsText (rec : Value) (key : String) : Prop := ∃ t, property key rec = some (some (.string t))

def IsWellFormed (rec : Value) (key : String) : Prop :=
  ∃ t, property key rec = some (some (.string t)) ∧ t.WellFormed

def IsHex (rec : Value) (key : String) (p : ℕ → Prop) : Prop :=
  ∃ v bytes, property key rec = some v ∧ hexToBytes v = some bytes ∧ p bytes.length

/-- The field is a number, and an integer from `low` on and below `high`. -/
def IsInteger (rec : Value) (key : String) (low high : ℤ) : Prop :=
  ∃ v z, property key rec = some (some v) ∧ v.integer? = some z ∧ low ≤ z ∧ z < high

/-- Every conversion of `verifySnapshot` succeeds. -/
structure Readable (rec : Value) : Prop where
  lunaId : IsWellFormed rec "luna_id"
  protectionId : IsText rec "protection_id"
  snapshotId : IsText rec "snapshot_id"
  createdAt : ∃ v z, property "created_at" rec = some v ∧ toBigInt v = some z
  keyVersion : ∃ v n, property "key_version" rec = some v ∧ toNumber v = some n
  treePackId : IsHex rec "tree_pack_id" (· = 32)
  treeHash : IsHex rec "tree_hash" (· = 32)
  details : IsHex rec "meta" fun _ => True

/-- The fields have the types a record's fields have. -/
structure Typed (rec : Value) : Prop where
  protectionId : IsWellFormed rec "protection_id"
  snapshotId : IsWellFormed rec "snapshot_id"
  createdAt : IsInteger rec "created_at" (-2 ^ 63) (2 ^ 63)
  keyVersion : IsInteger rec "key_version" 0 (2 ^ 32)

/-- What `snapshotView` reads. -/
structure ViewOf (rec : Value) (lunaId : Text) (view : SnapshotView) : Prop where
  luna : property "luna_id" rec = some (some (.string lunaId))
  lunaId : view.lunaId = some (.string lunaId)
  protectionId : property "protection_id" rec = some view.protectionId
  snapshotId : property "snapshot_id" rec = some view.snapshotId
  createdAt : property "created_at" rec = some view.createdAt
  keyVersion : property "key_version" rec = some view.keyVersion
  treePackId : ∃ v bytes, property "tree_pack_id" rec = some v ∧ hexToBytes v = some bytes ∧
    bytes.length = 32 ∧ view.treePackId = (bytesToHex bytes).map .char
  treeHash : ∃ v, property "tree_hash" rec = some v ∧ hexToBytes v = some view.treeHash ∧
    view.treeHash.length = 32
  details : ∃ v, property "meta" rec = some v ∧ hexToBytes v = some view.details

variable {view : SnapshotView} {lunaId : Text}

theorem viewOf_of_snapshotView {rec : Value}
    (h : snapshotView rec lunaId = some view) : ViewOf rec lunaId view := by
  unfold snapshotView at h
  obtain ⟨v, hluna, h⟩ := Option.bind_eq_some_iff.mp h
  split at h
  · rename_i id
    split at h
    · cases h
    rename_i hid
    obtain ⟨vp, hvp, h⟩ := Option.bind_eq_some_iff.mp h
    obtain ⟨packBytes, hpack, h⟩ := Option.bind_eq_some_iff.mp h
    obtain ⟨vh, hvh, h⟩ := Option.bind_eq_some_iff.mp h
    obtain ⟨hashBytes, hhash, h⟩ := Option.bind_eq_some_iff.mp h
    split at h
    · cases h
    rename_i hlen
    obtain ⟨protectionId, hprotection, h⟩ := Option.bind_eq_some_iff.mp h
    obtain ⟨snapshotId, hsnapshot, h⟩ := Option.bind_eq_some_iff.mp h
    obtain ⟨createdAt, hcreated, h⟩ := Option.bind_eq_some_iff.mp h
    obtain ⟨keyVersion, hversion, h⟩ := Option.bind_eq_some_iff.mp h
    obtain ⟨vm, hvm, h⟩ := Option.bind_eq_some_iff.mp h
    obtain ⟨details, hdetails, h⟩ := Option.bind_eq_some_iff.mp h
    cases h
    have hid : id = lunaId := not_not.mp hid
    rw [not_or, not_not, not_not] at hlen
    subst hid
    exact ⟨hluna, rfl, hprotection, hsnapshot, hcreated, hversion, ⟨vp, packBytes, hvp, hpack, hlen.1, rfl⟩,
      ⟨vh, hvh, hhash, hlen.2⟩, ⟨vm, hvm, hdetails⟩⟩
  · cases h

theorem snapshotView_of_viewOf {rec : Value}
    (h : ViewOf rec lunaId view) : snapshotView rec lunaId = some view := by
  obtain ⟨hluna, hid, hprotection, hsnapshot, hcreated, hversion, ⟨vp, packBytes, hvp, hpack, hpackLen, hhex⟩,
    ⟨vh, hvh, hhash, hhashLen⟩, ⟨vm, hvm, hdetails⟩⟩ := h
  simp only [snapshotView, hluna, hvp, hpack, hpackLen, hvh, hhash, hhashLen, hprotection, hsnapshot, hcreated,
    hversion, hvm, hdetails, Option.bind_eq_bind, Option.bind_some, ne_eq, not_true_eq_false, or_self, if_false,
    Option.pure_def]
  rw [← hid, ← hhex]

/-- What the signed bytes of a view are made of. -/
structure BytesOf (view : SnapshotView) (z : ℤ) (n : Option Number) (luna protection snapshot pack : Bytes) :
    Prop where
  createdAt : toBigInt view.createdAt = some z
  keyVersion : toNumber view.keyVersion = some n
  lunaId : utf8ToBytes view.lunaId = some luna
  protectionId : utf8ToBytes view.protectionId = some protection
  snapshotId : utf8ToBytes view.snapshotId = some snapshot
  treePackId : hexBytes view.treePackId = some pack

def fieldsOf (luna protection snapshot : Bytes) (z : ℤ) (version : ℕ) (pack hash details : Bytes) :
    List (String × Bytes) :=
  [("luna_id", luna), ("protection_id", protection), ("snapshot_id", snapshot), ("created_at", i64Bytes z),
    ("key_version", be32 version), ("tree_pack_id", pack), ("tree_hash", hash), ("meta", details)]

def bytesOf (view : SnapshotView) (z : ℤ) (n : Option Number) (luna protection snapshot pack : Bytes) : Bytes :=
  canonical (fieldsOf luna protection snapshot z (toUint32 n) pack view.treeHash view.details)

theorem bytesOf_of_snapshotSignedBytes (h : snapshotSignedBytes view = some m) :
    ∃ z n luna protection snapshot pack, BytesOf view z n luna protection snapshot pack ∧
      m = bytesOf view z n luna protection snapshot pack := by
  obtain ⟨z, hz, h⟩ := Option.bind_eq_some_iff.mp h
  obtain ⟨n, hn, h⟩ := Option.bind_eq_some_iff.mp h
  obtain ⟨luna, hluna, h⟩ := Option.bind_eq_some_iff.mp h
  obtain ⟨protection, hprotection, h⟩ := Option.bind_eq_some_iff.mp h
  obtain ⟨snapshot, hsnapshot, h⟩ := Option.bind_eq_some_iff.mp h
  obtain ⟨pack, hpack, h⟩ := Option.bind_eq_some_iff.mp h
  exact ⟨z, n, luna, protection, snapshot, pack, ⟨hz, hn, hluna, hprotection, hsnapshot, hpack⟩,
    (Option.some.inj h).symm⟩

variable {z : ℤ} {luna protection snapshot pack : Bytes} {n : Option Number}

theorem BytesOf.snapshotSignedBytes (h : BytesOf view z n luna protection snapshot pack) :
    snapshotSignedBytes view = some (bytesOf view z n luna protection snapshot pack) := by
  simp only [Browser.snapshotSignedBytes, h.createdAt, h.keyVersion, h.lunaId, h.protectionId, h.snapshotId,
    h.treePackId, Option.bind_eq_bind, Option.bind_some, Option.pure_def, bytesOf, fieldsOf]

/-! ### The signature -/

theorem verify_val (c : Crypto) (pub : SigPublic) (domain : String) (m : Bytes) (sig : SigBytes) :
    verify c pub.val domain m sig.val = c.verifySig pub (signedBytes domain m) sig := by
  rw [verify, Crypto.toFixed_val, Crypto.toFixed_val]

/-- With the record and the signature read, the view stands or falls with the signature. -/
theorem verifySnapshot_iff {c : Crypto} {data : Doc} {pub : SigPublic} {domain : String} {rec : Value} {sig : SigBytes} (hrec : property "record" (some data) = some rec)
    (hsig : Carries data sig) :
    verifySnapshot c (some data) [pub.val] lunaId domain = some view ↔ snapshotView rec lunaId = some view ∧
      ∃ m, snapshotSignedBytes view = some m ∧ c.verifySig pub (signedBytes domain m) sig = true := by
  obtain ⟨vs, hvs, hbytes⟩ := hsig
  simp only [verifySnapshot, hrec, hvs, hbytes, Option.bind_eq_bind, Option.bind_some, any_cons,
    any_nil, Bool.or_false, verify_val, Option.bind_eq_some_iff, Option.ite_none_right_eq_some,
    Option.some.injEq]
  constructor
  · rintro ⟨v, hview, m, hm, hverify, rfl⟩
    exact ⟨hview, m, hm, hverify⟩
  · rintro ⟨hview, m, hm, hverify⟩
    exact ⟨view, hview, m, hm, hverify, rfl⟩

theorem signedBytes_inj {domain : String} {m' : Bytes} (h : signedBytes domain m = signedBytes domain m') :
    m = m' := append_cancel_left h

theorem length_hexBytes {ps : List Point} (h : hexBytes ps = some bytes) :
    2 * bytes.length = ps.length := by
  have hpairs : ∀ (ds : List ℕ) (bytes : Bytes), hexPairs ds = some bytes → 2 * bytes.length = ds.length := by
    intro ds
    induction ds using hexPairs.induct with
    | case1 =>
      intro bytes h
      cases h
      rfl
    | case2 d => exact fun bytes h => nomatch h
    | case3 a b ds ih =>
      intro bytes h
      obtain ⟨rest, hrest, rfl⟩ := Option.map_eq_some_iff.mp h
      have hlen := ih rest hrest
      simp only [length_cons]
      omega
  obtain ⟨ds, hds, hbytes⟩ := Option.bind_eq_some_iff.mp h
  have hlen : ds.length = ps.length := by
    clear h hbytes
    induction ps generalizing ds with
    | nil =>
      cases hds
      rfl
    | cons p ps ih =>
      rw [mapM_cons] at hds
      obtain ⟨d, _, hds⟩ := Option.bind_eq_some_iff.mp hds
      obtain ⟨rest, hrest, hds⟩ := Option.bind_eq_some_iff.mp hds
      cases hds
      exact congrArg (· + 1) (ih rest hrest)
  rw [hpairs ds bytes hbytes, hlen]

theorem length_hexToBytes_lt {v : Value} (h : hexToBytes v = some bytes) :
    bytes.length < 2 ^ 32 := by
  unfold hexToBytes at h
  split at h
  · rename_i t
    have hlen := length_hexBytes h
    have hshort := t.short
    omega
  · cases h

theorem utf8ToBytes_eq_some {v : Value} (h : utf8ToBytes v = some bytes) :
    ∃ t, v = some (.string t) ∧ encoded t.points = bytes := by
  unfold utf8ToBytes at h
  split at h
  · rename_i t
    exact ⟨t, rfl, Option.some.inj h⟩
  · cases h

theorem toBigInt_of_integer? {v : Doc} (h : v.integer? = some z) : toBigInt (some v) = some z := by
  unfold Doc.integer? at h
  split at h
  · exact h
  · cases h

theorem toUint32_of_integer? {v : Doc} (h : v.integer? = some z)
    (hn : toNumber (some v) = some n) : toUint32 n = (z % 2 ^ 32).toNat := by
  unfold Doc.integer? at h
  split at h
  · rename_i x
    cases hn
    rw [toUint32, Double.trunc_of_integer? h]
  · cases h

/-! ### Snapshots -/

variable {c : Crypto} {seed : Bytes32} {domain : String} {rec : Value}

/-- The assumption on the signatures, of the bytes this `record` field is turned into. -/
def BindsRecord (c : Crypto) (seed : Bytes32) (domain : String) (rec : Value) : Prop :=
  ∀ lunaId view m, snapshotView rec lunaId = some view → snapshotSignedBytes view = some m →
    Binds c seed (signedBytes domain m)

/-- What the fields of a document are when its bytes are those a record was signed with. -/
structure SameBytes (view : SnapshotView) (r : SnapshotRecord) (z : ℤ) (n : Option Number)
    (luna protection snapshot pack : Bytes) : Prop where
  lunaId : luna = r.lunaId.toUTF8.toList
  protectionId : protection = r.protectionId.toUTF8.toList
  snapshotId : snapshot = r.snapshotId
  createdAt : z % 2 ^ 64 = r.createdAt % 2 ^ 64
  keyVersion : toUint32 n = r.keyVersion
  treePackId : pack = r.treePackId.val
  treeHash : view.treeHash = r.treeHash.val
  details : view.details = r.details

theorem fieldsOf_names {luna protection snapshot pack hash : Bytes} {version : ℕ} :
    (fieldsOf luna protection snapshot z version pack hash details).map Prod.fst =
      ["luna_id", "protection_id", "snapshot_id", "created_at", "key_version", "tree_pack_id", "tree_hash",
        "meta"] := rfl

theorem signedBytes_eq (r : SnapshotRecord) :
    r.signedBytes = canonical (fieldsOf r.lunaId.toUTF8.toList r.protectionId.toUTF8.toList r.snapshotId
      r.createdAt r.keyVersion r.treePackId.val r.treeHash.val r.details) := rfl

theorem fieldsOf_short (z : ℤ) (version : ℕ) {luna protection snapshot pack hash : Bytes}
    (hluna : luna.length < 2 ^ 32) (hprotection : protection.length < 2 ^ 32)
    (hsnapshot : snapshot.length < 2 ^ 32) (hpack : pack.length < 2 ^ 32) (hhash : hash.length < 2 ^ 32)
    (hdetails : details.length < 2 ^ 32) :
    ∀ f ∈ fieldsOf luna protection snapshot z version pack hash details, f.2.length < 2 ^ 32 := by
  have hz : (i64Bytes z).length < 2 ^ 32 := by
    rw [i64Bytes, length_be64]
    decide
  have hversion : (be32 version).length < 2 ^ 32 := by
    rw [length_be32]
    decide
  rw [fieldsOf]
  simp only [forall_mem_cons]
  exact ⟨hluna, hprotection, hsnapshot, hz, hversion, hpack, hhash, hdetails, fun _ h => by cases h⟩

theorem sameBytes_of_eq (hview : ViewOf rec lunaId view)
    (hof : BytesOf view z n luna protection snapshot pack) (hfits : Fits r)
    (h : bytesOf view z n luna protection snapshot pack = r.signedBytes) :
    SameBytes view r z n luna protection snapshot pack := by
  have hshort : ∀ {v : Value} {bytes : Bytes}, utf8ToBytes v = some bytes → bytes.length < 2 ^ 32 := by
    intro v bytes hbytes
    obtain ⟨t, _, rfl⟩ := utf8ToBytes_eq_some hbytes
    exact length_encoded_lt t
  obtain ⟨_, packBytes, _, _, hpackLen, hpack⟩ := hview.treePackId
  obtain ⟨_, _, _, hhashLen⟩ := hview.treeHash
  obtain ⟨_, _, hdetails⟩ := hview.details
  have hpackEq : pack = packBytes := by
    have hback := hof.treePackId
    rw [hpack, hexBytes_bytesToHex] at hback
    exact (Option.some.inj hback).symm
  have hpackShort : pack.length < 2 ^ 32 := by
    rw [hpackEq, hpackLen]
    decide
  have hhashShort : view.treeHash.length < 2 ^ 32 := by
    rw [hhashLen]
    decide
  have hpackFits : r.treePackId.val.length < 2 ^ 32 := by
    rw [r.treePackId.property]
    decide
  have hhashFits : r.treeHash.val.length < 2 ^ 32 := by
    rw [r.treeHash.property]
    decide
  have hdoc := fieldsOf_short z (toUint32 n) (hshort hof.lunaId) (hshort hof.protectionId)
    (hshort hof.snapshotId) hpackShort hhashShort (length_hexToBytes_lt hdetails)
  have hrecord := fieldsOf_short r.createdAt r.keyVersion hfits.lunaId hfits.protectionId hfits.snapshotId
    hpackFits hhashFits hfits.details
  have hfields := canonical_inj (fieldsOf_names.trans fieldsOf_names.symm) hdoc hrecord h
  simp only [fieldsOf, cons.injEq, Prod.mk.injEq, true_and, and_true] at hfields
  obtain ⟨hluna, hprotection, hsnapshot, hcreated, hversion, hpack, hhash, hdetails⟩ := hfields
  exact ⟨hluna, hprotection, hsnapshot, i64Bytes_inj hcreated,
    be32_inj (toUint32_lt n) hfits.keyVersion hversion, hpack, hhash, hdetails⟩

theorem readable_of_view (hluna : lunaId.WellFormed)
    (hview : ViewOf rec lunaId view) (hm : snapshotSignedBytes view = some m) : Readable rec := by
  obtain ⟨z, n, luna, protection, snapshot, pack, hof, _⟩ := bytesOf_of_snapshotSignedBytes hm
  obtain ⟨tp, hprotection, _⟩ := utf8ToBytes_eq_some hof.protectionId
  obtain ⟨ts, hsnapshot, _⟩ := utf8ToBytes_eq_some hof.snapshotId
  obtain ⟨vp, packBytes, hvp, hpack, hpackLen, _⟩ := hview.treePackId
  obtain ⟨vh, hvh, hhash, hhashLen⟩ := hview.treeHash
  obtain ⟨vm, hvm, hdetails⟩ := hview.details
  exact ⟨⟨lunaId, hview.luna, hluna⟩, ⟨tp, hprotection ▸ hview.protectionId⟩,
    ⟨ts, hsnapshot ▸ hview.snapshotId⟩, ⟨_, z, hview.createdAt, hof.createdAt⟩,
    ⟨_, n, hview.keyVersion, hof.keyVersion⟩, ⟨vp, packBytes, hvp, hpack, hpackLen⟩,
    ⟨vh, _, hvh, hhash, hhashLen⟩, ⟨vm, _, hvm, hdetails, trivial⟩⟩

theorem shows_of_sameBytes (htyped : Typed rec)
    (hview : ViewOf rec lunaId view) (hof : BytesOf view z n luna protection snapshot pack) (hfits : Fits r)
    (hspells : Spells lunaId r.lunaId) (hsame : SameBytes view r z n luna protection snapshot pack) :
    Shows view r := by
  obtain ⟨tp, htp, htpWell⟩ := htyped.protectionId
  obtain ⟨ts, hts, htsWell⟩ := htyped.snapshotId
  obtain ⟨va, za, hva, hza, hlow, hhigh⟩ := htyped.createdAt
  obtain ⟨vk, zk, hvk, hzk, hzero, hlt⟩ := htyped.keyVersion
  obtain ⟨_, packBytes, _, _, _, hpack⟩ := hview.treePackId
  have hprotection : view.protectionId = some (.string tp) := Option.some.inj (hview.protectionId.symm.trans htp)
  have hsnapshot : view.snapshotId = some (.string ts) := Option.some.inj (hview.snapshotId.symm.trans hts)
  have hcreated : view.createdAt = some va := Option.some.inj (hview.createdAt.symm.trans hva)
  have hversion : view.keyVersion = some vk := Option.some.inj (hview.keyVersion.symm.trans hvk)
  have hencodedProtection := hof.protectionId
  have hencodedSnapshot := hof.snapshotId
  have hz := hof.createdAt
  have hn := hof.keyVersion
  have hpackBytes := hof.treePackId
  rw [hprotection] at hencodedProtection
  rw [hsnapshot] at hencodedSnapshot
  rw [hcreated, toBigInt_of_integer? hza] at hz
  rw [hversion] at hn
  rw [hpack, hexBytes_bytesToHex] at hpackBytes
  refine ⟨⟨lunaId, hview.lunaId, hspells⟩, ⟨tp, hprotection, ?_⟩, ⟨ts, hsnapshot, htsWell, ?_⟩,
    ⟨va, hcreated, ?_⟩, ⟨vk, hversion, ?_⟩, ?_, hsame.treeHash, hsame.details⟩
  · exact spells_of_encoded htpWell ((Option.some.inj hencodedProtection).trans hsame.protectionId)
  · exact (Option.some.inj hencodedSnapshot).trans hsame.snapshotId
  · -- both numbers are in the range in which the eight bytes decide them
    have hza' : za = z := Option.some.inj hz
    have hwrap := hsame.createdAt
    have hrange := hfits.createdAt
    rw [hza, show za = r.createdAt by omega]
  · have hwrap := hsame.keyVersion
    rw [toUint32_of_integer? hzk hn] at hwrap
    rw [hzk, show zk = (r.keyVersion : ℤ) by omega]
  · rw [hpack, Option.some.inj hpackBytes, hsame.treePackId]

theorem showsSigned_of_typed (hbinds : BindsRecord c seed domain rec) (htyped : Readable rec → Typed rec) :
    ShowsSigned c seed domain rec := by
  intro data r lunaId view hfits hspells hrec hsig hverified
  obtain ⟨hview, m, hm, hverify⟩ := (verifySnapshot_iff hrec hsig).mp hverified
  have hsigned : signedBytes domain r.signedBytes = signedBytes domain m := hbinds lunaId view m hview hm _ hverify
  have hviewOf := viewOf_of_snapshotView hview
  have htyped := htyped (readable_of_view hspells.wellFormed hviewOf hm)
  obtain ⟨z, n, luna, protection, snapshot, pack, hof, hmEq⟩ := bytesOf_of_snapshotSignedBytes hm
  have hbytes : bytesOf view z n luna protection snapshot pack = r.signedBytes := by
    rw [← hmEq]
    exact (signedBytes_inj hsigned).symm
  have hsame := sameBytes_of_eq hviewOf hof hfits hbytes
  exact shows_of_sameBytes htyped hviewOf hof hfits hspells hsame

/-- The document of a record field and a signature. -/
def document (rec : Doc) (signature : SigBytes) : Doc :=
  .object [(.ofString "record" (by decide), rec),
    (.ofString "signature" (by decide), .string (hexText signature (by decide)))]

theorem property_document (rec : Doc) (signature : SigBytes) :
    property "record" (some (document rec signature)) = some (some rec) := by
  have hother : pointsOf "signature" ≠ pointsOf "record" := by decide
  simp only [document, property, Js.lookup, Text.ofString, if_neg hother, if_true]

theorem carries_document (rec : Doc) (signature : SigBytes) : Carries (document rec signature) signature := by
  refine ⟨some (.string (hexText signature (by decide))), ?_, hexBytes_bytesToHex signature.val⟩
  simp only [document, property, Js.lookup, Text.ofString, if_true]

theorem i64Bytes_bmod (z : ℤ) : i64Bytes (z.bmod (2 ^ 64)) = i64Bytes z := by
  have hmod : z.bmod (2 ^ 64) % 2 ^ 64 = z % 2 ^ 64 := Int.bmod_emod
  rw [i64Bytes, hmod, i64Bytes]

/-- What a signature over a readable document's bytes would be a signature of. -/
def recordOf (lunaId protectionId snapshotId : Text) (z : ℤ) (n : Option Number) (pack hash : Bytes32)
    (details : Bytes) : SnapshotRecord where
  lunaId := String.ofList (lunaId.points.map Point.encoded)
  protectionId := String.ofList (protectionId.points.map Point.encoded)
  snapshotId := encoded snapshotId.points
  createdAt := z.bmod (2 ^ 64)
  keyVersion := toUint32 n
  treePackId := pack
  treeHash := hash
  details := details

theorem fits_recordOf (lunaId protectionId snapshotId : Text) (z : ℤ) (n : Option Number) (pack hash : Bytes32)
    (hdetails : details.length < 2 ^ 32) :
    Fits (recordOf lunaId protectionId snapshotId z n pack hash details) where
  lunaId := length_encoded_lt lunaId
  protectionId := length_encoded_lt protectionId
  snapshotId := length_encoded_lt snapshotId
  createdAt := by
    have hlow := Int.le_bmod (x := z) (m := 2 ^ 64) (by decide)
    have hhigh := Int.bmod_lt (x := z) (m := 2 ^ 64) (by decide)
    simp only [recordOf]
    omega
  keyVersion := toUint32_lt n
  details := hdetails

theorem typed_of_showsSigned (h : ShowsSigned c seed domain rec) (hread : Readable rec) : Typed rec := by
  obtain ⟨tl, htl, hwell⟩ := hread.lunaId
  obtain ⟨tp, htp⟩ := hread.protectionId
  obtain ⟨ts, hts⟩ := hread.snapshotId
  obtain ⟨va, z, hva, hz⟩ := hread.createdAt
  obtain ⟨vk, n, hvk, hn⟩ := hread.keyVersion
  obtain ⟨vp, packBytes, hvp, hpack, hpackLen⟩ := hread.treePackId
  obtain ⟨vh, hashBytes, hvh, hhash, hhashLen⟩ := hread.treeHash
  obtain ⟨vm, details, hvm, hdetails, _⟩ := hread.details
  obtain ⟨d, rfl⟩ : ∃ d, rec = some d := by
    cases rec with
    | none => cases htl
    | some d => exact ⟨d, rfl⟩
  let r := recordOf tl tp ts z n ⟨packBytes, hpackLen⟩ ⟨hashBytes, hhashLen⟩ details
  let view : SnapshotView := ⟨some (.string tl), some (.string tp), some (.string ts), va, vk,
    (bytesToHex packBytes).map .char, hashBytes, details⟩
  have hviewOf : ViewOf (some d) tl view := ⟨htl, rfl, htp, hts, hva, hvk, ⟨vp, packBytes, hvp, hpack, hpackLen, rfl⟩,
    ⟨vh, hvh, hhash, hhashLen⟩, ⟨vm, hvm, hdetails⟩⟩
  have hof : BytesOf view z n (encoded tl.points) (encoded tp.points) (encoded ts.points) packBytes :=
    ⟨hz, hn, rfl, rfl, rfl, hexBytes_bytesToHex packBytes⟩
  have hbytes : r.signedBytes
      = bytesOf view z n (encoded tl.points) (encoded tp.points) (encoded ts.points) packBytes := by
    rw [signedBytes_eq, bytesOf]
    simp only [r, recordOf, fieldsOf, i64Bytes_bmod, view, encoded]
  have hverify := c.verify_sign seed (signedBytes domain r.signedBytes)
  have hfits : Fits r := fits_recordOf tl tp ts z n _ _ (length_hexToBytes_lt hdetails)
  have hshows := h (document d _) r tl view hfits (spells_ofList hwell) (property_document d _) (carries_document d _)
    ((verifySnapshot_iff (property_document d _) (carries_document d _)).mpr
      ⟨snapshotView_of_viewOf hviewOf, _, hof.snapshotSignedBytes, hbytes ▸ hverify⟩)
  obtain ⟨tp', htp', hspells⟩ := hshows.protectionId
  obtain ⟨ts', hts', hwell', _⟩ := hshows.snapshotId
  obtain ⟨v, hv, hcreated⟩ := hshows.createdAt
  obtain ⟨w, hw, hversion⟩ := hshows.keyVersion
  cases htp'
  cases hts'
  have hva : property "created_at" (some d) = some (some v) := hva.trans (congrArg some hv)
  have hvk : property "key_version" (some d) = some (some w) := hvk.trans (congrArg some hw)
  have hkey := hfits.keyVersion
  exact ⟨⟨tp, htp, hspells.wellFormed⟩, ⟨ts, hts, hwell'⟩, ⟨v, _, hva, hcreated, hfits.createdAt⟩,
    ⟨w, _, hvk, hversion, by omega, by omega⟩⟩

/-! ### Scopes -/

structure ScopeFits (r : Scopes.ScopeRecord) : Prop where
  lunaId : r.lunaId.toUTF8.toList.length < 2 ^ 32
  scope : r.scope.toUTF8.toList.length < 2 ^ 32
  userId : r.userId.toUTF8.toList.length < 2 ^ 32
  createdAt : -2 ^ 63 ≤ r.createdAt ∧ r.createdAt < 2 ^ 63
  sealedScopeSecret : r.sealedScopeSecret.length < 2 ^ 32
  sealedDedup : r.sealedDedup.length < 2 ^ 32

structure ScopeShows (view : ScopeView) (r : Scopes.ScopeRecord) : Prop where
  lunaId : Spells view.lunaId r.lunaId
  scope : Spells view.scope r.scope
  userId : Spells view.userId r.userId
  sealPublic : view.sealPublic = r.sealPublic.val
  authPublic : view.authPublic = r.authPublic.val
  createdAt : ∃ v, view.createdAt = some v ∧ v.integer? = some r.createdAt
  scopePublic : view.scopePublic = r.scopePublic.val
  sealedScopeSecret : view.sealedScopeSecret = r.sealedScopeSecret
  sealedDedup : view.sealedDedup = r.sealedDedup

def ScopeShowsSigned (c : Crypto) (seed : Bytes32) (rec : Value) : Prop :=
  ∀ (data : Doc) (r : Scopes.ScopeRecord) (lunaId : Text) (view : ScopeView), ScopeFits r →
    Spells lunaId r.lunaId → property "record" (some data) = some rec →
    Carries data (c.sign seed (signedBytes "private-scope" r.signedBytes)) →
    verifyScopeRecord c (some data) [(c.sigPublic seed).val] lunaId = some view → ScopeShows view r

def BindsScope (c : Crypto) (seed : Bytes32) (rec : Value) : Prop :=
  ∀ lunaId view m, scopeView rec lunaId = some (view, m) → Binds c seed (signedBytes "private-scope" m)

structure ScopeReadable (rec : Value) : Prop where
  lunaId : IsWellFormed rec "luna_id"
  scope : IsText rec "scope"
  userId : IsText rec "user_id"
  createdAt : IsInteger rec "created_at" (-(2 ^ 53) + 1) (2 ^ 53)
  sealPublic : IsHex rec "seal_public" (· = sealPublicLen)
  authPublic : IsHex rec "auth_public" (· = sigPublicLen)
  scopePublic : IsHex rec "scope_public" (· = sealPublicLen)
  sealedScopeSecret : IsHex rec "sealed_scope_secret" fun _ => True
  sealedDedup : IsHex rec "sealed_dedup" fun _ => True

structure ScopeTyped (rec : Value) : Prop where
  scope : IsWellFormed rec "scope"
  userId : IsWellFormed rec "user_id"

def HexField (rec : Value) (key : String) (bytes : Bytes) : Prop :=
  ∃ v, property key rec = some v ∧ hexToBytes v = some bytes

/-- What `scopeView` reads. -/
structure ScopeOf (rec : Value) (view : ScopeView) (z : ℤ) : Prop where
  lunaId : property "luna_id" rec = some (some (.string view.lunaId))
  scope : property "scope" rec = some (some (.string view.scope))
  userId : property "user_id" rec = some (some (.string view.userId))
  createdAt : property "created_at" rec = some view.createdAt
  integer : safeInteger? view.createdAt = some z
  sealPublic : HexField rec "seal_public" view.sealPublic ∧ view.sealPublic.length = sealPublicLen
  authPublic : HexField rec "auth_public" view.authPublic ∧ view.authPublic.length = sigPublicLen
  scopePublic : HexField rec "scope_public" view.scopePublic ∧ view.scopePublic.length = sealPublicLen
  sealedScopeSecret : HexField rec "sealed_scope_secret" view.sealedScopeSecret
  sealedDedup : HexField rec "sealed_dedup" view.sealedDedup

def scopeFields (luna scope user sealPublic authPublic : Bytes) (z : ℤ) (scopePublic secret dedup : Bytes) :
    List (String × Bytes) :=
  [("luna_id", luna), ("scope", scope), ("user_id", user), ("seal_public", sealPublic),
    ("auth_public", authPublic), ("created_at", i64Bytes z), ("scope_public", scopePublic),
    ("sealed_scope_secret", secret), ("sealed_dedup", dedup)]

def scopeBytes (view : ScopeView) (z : ℤ) : Bytes :=
  canonical (scopeFields (encoded view.lunaId.points) (encoded view.scope.points) (encoded view.userId.points)
    view.sealPublic view.authPublic z view.scopePublic view.sealedScopeSecret view.sealedDedup)

theorem scopeOf_of_scopeView {view : ScopeView} (h : scopeView rec lunaId = some (view, m)) :
    view.lunaId = lunaId ∧ ∃ z, ScopeOf rec view z ∧ m = scopeBytes view z := by
  unfold scopeView at h
  obtain ⟨v, hluna, h⟩ := Option.bind_eq_some_iff.mp h
  split at h
  · rename_i id
    split at h
    · cases h
    rename_i hid
    obtain ⟨v, hscope, h⟩ := Option.bind_eq_some_iff.mp h
    split at h
    · obtain ⟨v, huser, h⟩ := Option.bind_eq_some_iff.mp h
      split at h
      · obtain ⟨va, hva, h⟩ := Option.bind_eq_some_iff.mp h
        obtain ⟨z, hz, h⟩ := Option.bind_eq_some_iff.mp h
        obtain ⟨v1, hv1, h⟩ := Option.bind_eq_some_iff.mp h
        obtain ⟨sealPublic, hseal, h⟩ := Option.bind_eq_some_iff.mp h
        obtain ⟨v2, hv2, h⟩ := Option.bind_eq_some_iff.mp h
        obtain ⟨authPublic, hauth, h⟩ := Option.bind_eq_some_iff.mp h
        obtain ⟨v3, hv3, h⟩ := Option.bind_eq_some_iff.mp h
        obtain ⟨scopePublic, hpublic, h⟩ := Option.bind_eq_some_iff.mp h
        obtain ⟨v4, hv4, h⟩ := Option.bind_eq_some_iff.mp h
        obtain ⟨secret, hsecret, h⟩ := Option.bind_eq_some_iff.mp h
        obtain ⟨v5, hv5, h⟩ := Option.bind_eq_some_iff.mp h
        obtain ⟨dedup, hdedup, h⟩ := Option.bind_eq_some_iff.mp h
        split at h
        · cases h
        rename_i hlen
        split at h
        · cases h
        rename_i hlen'
        cases h
        rw [not_or, not_not, not_not] at hlen
        exact ⟨not_not.mp hid, z, ⟨hluna, hscope, huser, hva, hz, ⟨⟨v1, hv1, hseal⟩, hlen.1⟩,
          ⟨⟨v2, hv2, hauth⟩, hlen.2⟩, ⟨⟨v3, hv3, hpublic⟩, not_not.mp hlen'⟩, ⟨v4, hv4, hsecret⟩,
          ⟨v5, hv5, hdedup⟩⟩, rfl⟩
      · cases h
    · cases h
  · cases h

theorem ScopeOf.scopeView {view : ScopeView} (h : ScopeOf rec view z) :
    scopeView rec view.lunaId = some (view, scopeBytes view z) := by
  obtain ⟨hluna, hscope, huser, hva, hz, ⟨⟨v1, hv1, hseal⟩, hlen1⟩, ⟨⟨v2, hv2, hauth⟩, hlen2⟩,
    ⟨⟨v3, hv3, hpublic⟩, hlen3⟩, ⟨v4, hv4, hsecret⟩, ⟨v5, hv5, hdedup⟩⟩ := h
  simp only [Browser.scopeView, hluna, hscope, huser, hva, hz, hv1, hseal, hlen1, hv2, hauth, hlen2, hv3, hpublic,
    hlen3, hv4, hsecret, hv5, hdedup, Option.bind_eq_bind, Option.bind_some, ne_eq, not_true_eq_false, or_self,
    if_false, Option.pure_def, scopeBytes, scopeFields]

theorem verifyScopeRecord_iff {data : Doc} {pub : SigPublic} {view : ScopeView} {sig : SigBytes}
    (hrec : property "record" (some data) = some rec) (hsig : Carries data sig) :
    verifyScopeRecord c (some data) [pub.val] lunaId = some view ↔ ∃ m, scopeView rec lunaId = some (view, m) ∧
      c.verifySig pub (signedBytes "private-scope" m) sig = true := by
  obtain ⟨vs, hvs, hbytes⟩ := hsig
  simp only [verifyScopeRecord, hrec, hvs, hbytes, sig.property, Option.bind_eq_bind, Option.bind_some,
    any_cons, any_nil, Bool.or_false, verify_val, Option.bind_eq_some_iff,
    Option.ite_none_right_eq_some, Option.some.injEq, ne_eq, not_true_eq_false, if_false]
  constructor
  · rintro ⟨⟨v, m⟩, hview, hverify, rfl⟩
    exact ⟨m, hview, hverify⟩
  · rintro ⟨m, hview, hverify⟩
    exact ⟨(view, m), hview, hverify, rfl⟩

theorem scopeFields_names {luna scope user sealPublic authPublic scopePublic secret dedup : Bytes} :
    (scopeFields luna scope user sealPublic authPublic z scopePublic secret dedup).map Prod.fst =
      ["luna_id", "scope", "user_id", "seal_public", "auth_public", "created_at", "scope_public",
        "sealed_scope_secret", "sealed_dedup"] := rfl

theorem scopeFields_short (z : ℤ) {luna scope user sealPublic authPublic scopePublic secret dedup : Bytes}
    (hluna : luna.length < 2 ^ 32) (hscope : scope.length < 2 ^ 32) (huser : user.length < 2 ^ 32)
    (hseal : sealPublic.length = sealPublicLen) (hauth : authPublic.length = sigPublicLen)
    (hpublic : scopePublic.length = sealPublicLen) (hsecret : secret.length < 2 ^ 32)
    (hdedup : dedup.length < 2 ^ 32) :
    ∀ f ∈ scopeFields luna scope user sealPublic authPublic z scopePublic secret dedup, f.2.length < 2 ^ 32 := by
  have hz : (i64Bytes z).length < 2 ^ 32 := by
    rw [i64Bytes, length_be64]
    decide
  have hsealLen : sealPublicLen < 2 ^ 32 := by decide
  have hsigLen : sigPublicLen < 2 ^ 32 := by decide
  rw [scopeFields]
  simp only [forall_mem_cons, hseal, hauth, hpublic]
  exact ⟨hluna, hscope, huser, hsealLen, hsigLen, hz, hsealLen, hsecret, hdedup, fun _ h => by cases h⟩

theorem safeInteger?_eq_some {v : Value} (h : safeInteger? v = some z) :
    ∃ d, v = some d ∧ d.integer? = some z ∧ z.natAbs < 2 ^ 53 := by
  unfold safeInteger? at h
  split at h
  · rename_i d
    obtain ⟨z', hz', h⟩ := Option.bind_eq_some_iff.mp h
    split at h
    · rename_i hsafe
      cases h
      exact ⟨d, rfl, hz', hsafe⟩
    · cases h
  · cases h

theorem scopeShows_of_eq {view : ScopeView} {r : Scopes.ScopeRecord} (htyped : ScopeTyped rec)
    (hof : ScopeOf rec view z) (hfits : ScopeFits r) (hspells : Spells view.lunaId r.lunaId)
    (h : scopeBytes view z = r.signedBytes) : ScopeShows view r := by
  obtain ⟨ts, hts, hscopeWell⟩ := htyped.scope
  obtain ⟨tu, htu, huserWell⟩ := htyped.userId
  obtain ⟨_, _, hsecret⟩ := hof.sealedScopeSecret
  obtain ⟨_, _, hdedup⟩ := hof.sealedDedup
  have hdoc := scopeFields_short z (length_encoded_lt view.lunaId) (length_encoded_lt view.scope)
    (length_encoded_lt view.userId) hof.sealPublic.2 hof.authPublic.2 hof.scopePublic.2
    (length_hexToBytes_lt hsecret) (length_hexToBytes_lt hdedup)
  have hrecord := scopeFields_short r.createdAt hfits.lunaId hfits.scope hfits.userId r.sealPublic.property
    r.authPublic.property r.scopePublic.property hfits.sealedScopeSecret hfits.sealedDedup
  rw [scopeBytes] at h
  have hfields := canonical_inj (scopeFields_names.trans scopeFields_names.symm) hdoc hrecord h
  simp only [scopeFields, cons.injEq, Prod.mk.injEq, true_and, and_true] at hfields
  obtain ⟨_, hscope, huser, hseal, hauth, hcreated, hpublic, hsecretEq, hdedupEq⟩ := hfields
  have htsEq : ts = view.scope := by
    have hsame := hts.symm.trans hof.scope
    cases hsame
    rfl
  have htuEq : tu = view.userId := by
    have hsame := htu.symm.trans hof.userId
    cases hsame
    rfl
  obtain ⟨d, hd, hz, hsafe⟩ := safeInteger?_eq_some hof.integer
  have hrange := hfits.createdAt
  have hwrap := i64Bytes_inj hcreated
  have hzEq : z = r.createdAt := by omega
  exact ⟨hspells, spells_of_encoded (htsEq ▸ hscopeWell) hscope, spells_of_encoded (htuEq ▸ huserWell) huser,
    hseal, hauth, ⟨d, hd, hzEq ▸ hz⟩, hpublic, hsecretEq, hdedupEq⟩

theorem scopeReadable_of_view {view : ScopeView} (hluna : view.lunaId.WellFormed)
    (hof : ScopeOf rec view z) : ScopeReadable rec := by
  obtain ⟨d, hd, hz, hsafe⟩ := safeInteger?_eq_some hof.integer
  have hhex : ∀ {key : String} {bytes : Bytes} {p : ℕ → Prop}, HexField rec key bytes → p bytes.length →
      IsHex rec key p := by
    rintro key bytes p ⟨v, hv, hbytes⟩ hp
    exact ⟨v, bytes, hv, hbytes, hp⟩
  exact ⟨⟨_, hof.lunaId, hluna⟩, ⟨_, hof.scope⟩, ⟨_, hof.userId⟩,
    ⟨d, z, hd ▸ hof.createdAt, hz, by omega, by omega⟩, hhex hof.sealPublic.1 hof.sealPublic.2,
    hhex hof.authPublic.1 hof.authPublic.2, hhex hof.scopePublic.1 hof.scopePublic.2,
    hhex hof.sealedScopeSecret trivial, hhex hof.sealedDedup trivial⟩

theorem scopeShowsSigned_of_typed (hbinds : BindsScope c seed rec)
    (htyped : ScopeReadable rec → ScopeTyped rec) : ScopeShowsSigned c seed rec := by
  intro data r lunaId view hfits hspells hrec hsig hverified
  obtain ⟨m, hview, hverify⟩ := (verifyScopeRecord_iff hrec hsig).mp hverified
  have hsigned := hbinds lunaId view m hview _ hverify
  obtain ⟨rfl, z, hof, hmEq⟩ := scopeOf_of_scopeView hview
  have hbytes : scopeBytes view z = r.signedBytes := by
    rw [← hmEq]
    exact (signedBytes_inj hsigned).symm
  exact scopeShows_of_eq (htyped (scopeReadable_of_view hspells.wellFormed hof)) hof hfits hspells hbytes

theorem scopeTyped_of_showsSigned (h : ScopeShowsSigned c seed rec) (hread : ScopeReadable rec) :
    ScopeTyped rec := by
  obtain ⟨tl, htl, hwell⟩ := hread.lunaId
  obtain ⟨ts, hts⟩ := hread.scope
  obtain ⟨tu, htu⟩ := hread.userId
  obtain ⟨va, z, hva, hz, hlow, hhigh⟩ := hread.createdAt
  obtain ⟨v1, sealPublic, hv1, hseal, hsealLen⟩ := hread.sealPublic
  obtain ⟨v2, authPublic, hv2, hauth, hauthLen⟩ := hread.authPublic
  obtain ⟨v3, scopePublic, hv3, hpublic, hpublicLen⟩ := hread.scopePublic
  obtain ⟨v4, secret, hv4, hsecret, _⟩ := hread.sealedScopeSecret
  obtain ⟨v5, dedup, hv5, hdedup, _⟩ := hread.sealedDedup
  obtain ⟨d, rfl⟩ : ∃ d, rec = some d := by
    cases rec with
    | none => cases htl
    | some d => exact ⟨d, rfl⟩
  let r : Scopes.ScopeRecord := ⟨String.ofList (tl.points.map Point.encoded),
    String.ofList (ts.points.map Point.encoded), String.ofList (tu.points.map Point.encoded),
    ⟨sealPublic, hsealLen⟩, ⟨authPublic, hauthLen⟩, z, ⟨scopePublic, hpublicLen⟩, secret, dedup⟩
  let view : ScopeView := ⟨tl, ts, tu, sealPublic, authPublic, some va, scopePublic, secret, dedup⟩
  have hsafe : safeInteger? (some va) = some z := by
    have hz53 : z.natAbs < 2 ^ 53 := by omega
    rw [safeInteger?, hz, Option.bind_some, if_pos hz53]
  have hof : ScopeOf (some d) view z := ⟨htl, hts, htu, hva, hsafe, ⟨⟨v1, hv1, hseal⟩, hsealLen⟩,
    ⟨⟨v2, hv2, hauth⟩, hauthLen⟩, ⟨⟨v3, hv3, hpublic⟩, hpublicLen⟩, ⟨v4, hv4, hsecret⟩, ⟨v5, hv5, hdedup⟩⟩
  have hfits : ScopeFits r := ⟨length_encoded_lt tl, length_encoded_lt ts, length_encoded_lt tu,
    ⟨by show -2 ^ 63 ≤ z; omega, by show z < 2 ^ 63; omega⟩, length_hexToBytes_lt hsecret,
    length_hexToBytes_lt hdedup⟩
  have hverify := c.verify_sign seed (signedBytes "private-scope" r.signedBytes)
  have hshows := h (document d _) r tl view hfits (spells_ofList hwell) (property_document d _)
    (carries_document d _) ((verifyScopeRecord_iff (property_document d _) (carries_document d _)).mpr
      ⟨_, hof.scopeView, hverify⟩)
  exact ⟨⟨ts, hts, hshows.scope.wellFormed⟩, ⟨tu, htu, hshows.userId.wellFormed⟩⟩

/-! ### The order of a listing -/

/-- The time a snapshot is shown with. -/
def shownAt (s : PrivateSnapshot) : ℤ := (s.snap.createdAt.bind Doc.integer?).getD 0

theorem Shows.shownAt {s : PrivateSnapshot} (h : Shows s.snap r) :
    shownAt s = r.createdAt := by
  obtain ⟨v, hv, hz⟩ := h.createdAt
  rw [Browser.shownAt, hv, Option.bind_some, hz, Option.getD_some]

theorem toNumber_of_integer? {v : Doc} (h : v.integer? = some z) :
    ∃ x : Double, toNumber (some v) = some (some (.finite x)) ∧ x.integer? = some z := by
  unfold Doc.integer? at h
  split at h
  · rename_i x
    exact ⟨x, rfl, h⟩
  · cases h

theorem notAfter_eq {a b : PrivateSnapshot} {ra rb : SnapshotRecord} (ha : Shows a.snap ra)
    (hb : Shows b.snap rb) : notAfter a b = decide (shownAt b ≤ shownAt a) := by
  obtain ⟨va, hva, hza⟩ := ha.createdAt
  obtain ⟨vb, hvb, hzb⟩ := hb.createdAt
  obtain ⟨x, hx, hxa⟩ := toNumber_of_integer? hza
  obtain ⟨y, hy, hyb⟩ := toNumber_of_integer? hzb
  have hless := Double.less_iff hxa hyb
  rw [ha.shownAt, hb.shownAt, notAfter, hva, hvb, hx, hy]
  simp only [Number.less, hless, Int.not_lt]

theorem pairwise_sorted (l : List PrivateSnapshot) (h : ∀ s ∈ l, ∃ r, Shows s.snap r) :
    (l.mergeSort notAfter).Pairwise fun a b => shownAt b ≤ shownAt a := by
  have hsame : ∀ a ∈ l, ∀ b ∈ l, notAfter a b = decide (shownAt b ≤ shownAt a) := by
    intro a ha b hb
    obtain ⟨ra, hra⟩ := h a ha
    obtain ⟨rb, hrb⟩ := h b hb
    exact notAfter_eq hra hrb
  have htimes := map_mergeSort (s := fun x y : ℤ => decide (y ≤ x)) (f := shownAt) hsame
  have hsorted : ((l.mergeSort notAfter).map shownAt).Pairwise fun x y => decide (y ≤ x) = true := by
    rw [htimes]
    refine pairwise_mergeSort (fun x y z hxy hyz => ?_) (fun x y => ?_) _
    · rw [decide_eq_true_iff] at hxy hyz ⊢
      exact hyz.trans hxy
    · rw [Bool.or_eq_true, decide_eq_true_iff, decide_eq_true_iff]
      exact le_total y x
  rw [pairwise_map] at hsorted
  exact hsorted.imp fun h => of_decide_eq_true h

/-- A document of the listing carries a signature Luna made for a snapshot, and its fields have their types. -/
def Stored (c : Crypto) (seed : Bytes32) (lunaId : Text) (data : Option Doc) : Prop :=
  ∀ d, data = some d → ∃ rec r, property "record" (some d) = some rec ∧ Fits r ∧ Spells lunaId r.lunaId ∧
    Carries d (c.sign seed (signedBytes "private-snapshot" r.signedBytes)) ∧
    BindsRecord c seed "private-snapshot" rec ∧ (Readable rec → Typed rec)

theorem shows_of_readPrivateSnapshot {parse : Bytes → Option Doc} {lunaId scope name : Text}
    {sealSecret : SealSecret} {data : Option Doc} {s : PrivateSnapshot} (hstored : Stored c seed lunaId data)
    (h : readPrivateSnapshot c parse lunaId sealSecret scope [(c.sigPublic seed).val] name data = some s) :
    ∃ r, Shows s.snap r := by
  unfold readPrivateSnapshot at h
  split at h
  · cases h
  obtain ⟨snap, hsnap, hbody⟩ := Option.bind_eq_some_iff.mp h
  cases data with
  | none => cases hsnap
  | some d =>
    obtain ⟨rec, r, hrec, hfits, hspells, hcarries, hbinds, htyped⟩ := hstored d rfl
    have hshows := showsSigned_of_typed hbinds htyped d r lunaId snap hfits hspells hrec hcarries hsnap
    split at hbody
    · split at hbody
      · cases hbody
      · obtain ⟨details, _, hpush⟩ := Option.bind_eq_some_iff.mp hbody
        cases hpush
        exact ⟨r, hshows⟩
    · cases hbody

theorem readPrivateSnapshots_sorted (parse : Bytes → Option Doc) (lunaId scope : Text) (sealSecret : SealSecret)
    (psnapshots : List (Text × Option Doc)) (hstored : ∀ p ∈ psnapshots, Stored c seed lunaId p.2) :
    (∀ s ∈ readPrivateSnapshots c parse lunaId sealSecret scope psnapshots [(c.sigPublic seed).val],
      ∃ r, Shows s.snap r) ∧
    (readPrivateSnapshots c parse lunaId sealSecret scope psnapshots [(c.sigPublic seed).val]).Pairwise
      fun a b => ∀ ra rb, Shows a.snap ra → Shows b.snap rb → rb.createdAt ≤ ra.createdAt := by
  have hshows : ∀ s ∈ psnapshots.filterMap fun r =>
      readPrivateSnapshot c parse lunaId sealSecret scope [(c.sigPublic seed).val] r.1 r.2,
      ∃ r, Shows s.snap r := by
    intro s hs
    obtain ⟨p, hp, hread⟩ := mem_filterMap.mp hs
    exact shows_of_readPrivateSnapshot (hstored p hp) hread
  refine ⟨fun s hs => hshows s (mem_mergeSort.mp hs), ?_⟩
  refine (pairwise_sorted _ hshows).imp fun {a b} hle ra rb ha hb => ?_
  rwa [← ha.shownAt, ← hb.shownAt]

/-- Under the assumption on signatures, a snapshot's document shows what was signed, whatever it was, exactly
when its fields have their types or cannot be read; a scope's, exactly when no surrogate stands alone in it.
A listing of such documents is sorted by the times Luna signed. -/
theorem shows_signed_iff (c : Crypto) (seed : Bytes32) : (∀ domain rec, BindsRecord c seed domain rec →
      (ShowsSigned c seed domain rec ↔ (Readable rec → Typed rec))) ∧
    (∀ rec, BindsScope c seed rec → (ScopeShowsSigned c seed rec ↔ (ScopeReadable rec → ScopeTyped rec))) ∧
    ∀ (parse : Bytes → Option Doc) (lunaId scope : Text) (sealSecret : SealSecret)
      (psnapshots : List (Text × Option Doc)), (∀ p ∈ psnapshots, Stored c seed lunaId p.2) →
      (∀ s ∈ readPrivateSnapshots c parse lunaId sealSecret scope psnapshots [(c.sigPublic seed).val],
        ∃ r, Shows s.snap r) ∧
      (readPrivateSnapshots c parse lunaId sealSecret scope psnapshots [(c.sigPublic seed).val]).Pairwise
        fun a b => ∀ ra rb, Shows a.snap ra → Shows b.snap rb → rb.createdAt ≤ ra.createdAt := by
  refine ⟨fun domain rec hbinds => ⟨typed_of_showsSigned, showsSigned_of_typed hbinds⟩,
    fun rec hbinds => ⟨scopeTyped_of_showsSigned, scopeShowsSigned_of_typed hbinds⟩, ?_⟩
  intro parse lunaId scope sealSecret psnapshots hstored
  exact readPrivateSnapshots_sorted parse lunaId scope sealSecret psnapshots hstored

/-! ### Two documents -/

/-- Signatures that bind to one message. -/
def signingCrypto (m₀ : Bytes) : Crypto :=
  { toyCrypto with
    sign := fun _ m => Fixed.fill sigLen (if m = m₀ then 1 else 0)
    verifySig := fun _ m sig => sig = Fixed.fill sigLen (if m = m₀ then 1 else 0)
    verify_sign := fun _ _ => decide_eq_true rfl }

theorem binds_signingCrypto (seed : Bytes32) (m₀ : Bytes) : Binds (signingCrypto m₀) seed m₀ := by
  intro m hverify
  have hsame : fill sigLen (if m = m₀ then 1 else 0) = fill sigLen (if m₀ = m₀ then 1 else 0) :=
    of_decide_eq_true hverify
  by_contra hne
  have hfirst := congrArg (fun sig : SigBytes => sig.val.head?) hsame
  rw [if_neg hne, if_pos rfl] at hfirst
  exact absurd hfirst (by decide)

def signedOf (domain : String) (rec : Value) (luna : Text) : Bytes :=
  signedBytes domain (((snapshotView rec luna).bind snapshotSignedBytes).getD [])

theorem bindsRecord_signingCrypto (seed : Bytes32) (domain : String) {luna : Text}
    (hluna : property "luna_id" rec = some (some (.string luna))) :
    BindsRecord (signingCrypto (signedOf domain rec luna)) seed domain rec := by
  intro lunaId view m hview hm
  have hid : lunaId = luna := by
    have hsame := (viewOf_of_snapshotView hview).luna.symm.trans hluna
    cases hsame
    rfl
  subst hid
  have hbytes : signedBytes domain m = signedOf domain rec lunaId := by
    rw [signedOf, hview, Option.bind_some, hm, Option.getD_some]
  rw [hbytes]
  exact binds_signingCrypto seed _

def lunaText : Text := .ofString "luna" (by decide)

def recordDoc (createdAt : Doc) : Doc :=
  .object [(.ofString "luna_id" (by decide), .string lunaText),
    (.ofString "protection_id" (by decide), .string (.ofString "photos" (by decide))),
    (.ofString "snapshot_id" (by decide), .string (.ofString "s1" (by decide))),
    (.ofString "created_at" (by decide), createdAt),
    (.ofString "key_version" (by decide), .number (.finite (.ofInt 1 (by decide)))),
    (.ofString "tree_pack_id" (by decide), .string (hexText (Fixed.fill 32 0) (by decide))),
    (.ofString "tree_hash" (by decide), .string (hexText (Fixed.fill 32 0) (by decide))),
    (.ofString "meta" (by decide), .string (hexText (Fixed.fill 2 0) (by decide)))]

theorem readable_recordDoc {createdAt : Doc} (h : toBigInt (some createdAt) = some z) :
    Readable (some (recordDoc createdAt)) where
  lunaId := ⟨lunaText, rfl, (show Spells lunaText "luna" from rfl).wellFormed⟩
  protectionId := ⟨_, rfl⟩
  snapshotId := ⟨_, rfl⟩
  createdAt := ⟨_, z, rfl, h⟩
  keyVersion := ⟨_, _, rfl, rfl⟩
  treePackId := ⟨_, _, rfl, hexBytes_bytesToHex _, rfl⟩
  treeHash := ⟨_, _, rfl, hexBytes_bytesToHex _, rfl⟩
  details := ⟨_, _, rfl, hexBytes_bytesToHex _, trivial⟩

/-- A time of the year 2023. -/
def honestDoc : Doc := recordDoc (.number (.finite (.ofInt 1700003840 (by decide))))

/-- The same time and `2 ^ 64` seconds more. -/
def movedDoc : Doc := recordDoc (.number (.finite ⟨4503599627785536, 12, by decide, by decide⟩))

theorem movedDoc_not_shown :
    BindsRecord (signingCrypto (signedOf "private-snapshot" (some movedDoc) lunaText)) (fill 32 0)
      "private-snapshot" (some movedDoc) ∧
    ¬ ShowsSigned (signingCrypto (signedOf "private-snapshot" (some movedDoc) lunaText)) (fill 32 0)
      "private-snapshot" (some movedDoc) := by
  refine ⟨bindsRecord_signingCrypto _ _ rfl, fun h => ?_⟩
  have htime : toBigInt (some (.number (.finite ⟨4503599627785536, 12, by decide, by decide⟩)))
      = some 18446744075409555456 := by decide
  obtain ⟨v, z, hv, hz, _, hhigh⟩ := (typed_of_showsSigned h (readable_recordDoc htime)).createdAt
  cases hv
  cases hz
  exact absurd hhigh (by decide)

def scopeDoc : Doc :=
  .object [(.ofString "luna_id" (by decide), .string lunaText),
    (.ofString "scope" (by decide), .string (.ofString "a1" (by decide))),
    (.ofString "user_id" (by decide), .string (.ofString "ada" (by decide))),
    (.ofString "seal_public" (by decide), .string (hexText (Fixed.fill sealPublicLen 0) (by decide))),
    (.ofString "auth_public" (by decide), .string (hexText (Fixed.fill sigPublicLen 0) (by decide))),
    (.ofString "created_at" (by decide), .number (.finite (.ofInt 7 (by decide)))),
    (.ofString "scope_public" (by decide), .string (hexText (Fixed.fill sealPublicLen 0) (by decide))),
    (.ofString "sealed_scope_secret" (by decide), .string (hexText (Fixed.fill 2 0) (by decide))),
    (.ofString "sealed_dedup" (by decide), .string (hexText (Fixed.fill 2 0) (by decide)))]

def signedScopeOf (rec : Value) (luna : Text) : Bytes :=
  signedBytes "private-scope" (((scopeView rec luna).map Prod.snd).getD [])

theorem bindsScope_signingCrypto (seed : Bytes32) {luna : Text}
    (hluna : property "luna_id" rec = some (some (.string luna))) :
    BindsScope (signingCrypto (signedScopeOf rec luna)) seed rec := by
  intro lunaId view m hview
  have hid : lunaId = luna := by
    obtain ⟨rfl, z, hof, _⟩ := scopeOf_of_scopeView hview
    have hsame := hof.lunaId.symm.trans hluna
    cases hsame
    rfl
  subst hid
  have hbytes : signedBytes "private-scope" m = signedScopeOf rec lunaId := by
    rw [signedScopeOf, hview, Option.map_some, Option.getD_some]
  rw [hbytes]
  exact binds_signingCrypto seed _

def honestRecord : SnapshotRecord :=
  ⟨"luna", "photos", "s1".toUTF8.toList, 1700003840, 1, Fixed.fill 32 0, Fixed.fill 32 0, [0, 0]⟩

def honestCrypto : Crypto := signingCrypto (signedOf "private-snapshot" (some honestDoc) lunaText)

def honestListing : List (Text × Option Doc) :=
  [(.ofString "a1.s1" (by decide), some (document honestDoc
    (honestCrypto.sign (Fixed.fill 32 0) (signedBytes "private-snapshot" honestRecord.signedBytes))))]

theorem typed_honestDoc : Typed (some honestDoc) where
  protectionId := ⟨_, rfl, (show Spells (.ofString "photos" (by decide)) "photos" from rfl).wellFormed⟩
  snapshotId := ⟨_, rfl, (show Spells (.ofString "s1" (by decide)) "s1" from rfl).wellFormed⟩
  createdAt := ⟨_, 1700003840, rfl, by decide, by decide, by decide⟩
  keyVersion := ⟨_, 1, rfl, by decide, by decide, by decide⟩

theorem stored_honestListing : ∀ p ∈ honestListing, Stored honestCrypto (fill 32 0) lunaText p.2 := by
  intro p hp
  obtain rfl := mem_singleton.mp hp
  intro d hd
  cases hd
  have hfits : Fits honestRecord := ⟨by decide +kernel, by decide +kernel, by decide +kernel, by decide, by decide,
    by decide⟩
  exact ⟨some honestDoc, honestRecord, property_document _ _, hfits, rfl, carries_document _ _,
    bindsRecord_signingCrypto _ _ rfl, fun _ => typed_honestDoc⟩

theorem honestDoc_shown : ShowsSigned honestCrypto (fill 32 0) "private-snapshot" (some honestDoc) ∧
    ScopeShowsSigned (signingCrypto (signedScopeOf (some scopeDoc) lunaText)) (fill 32 0) (some scopeDoc) ∧
    ∀ s ∈ readPrivateSnapshots honestCrypto (fun _ => none) lunaText (fill sealSecretLen 0)
      (.ofString "a1" (by decide)) honestListing [(honestCrypto.sigPublic (fill 32 0)).val],
      ∃ r, Shows s.snap r := by
  have hbinds : BindsRecord honestCrypto (fill 32 0) "private-snapshot" (some honestDoc) :=
    bindsRecord_signingCrypto _ _ rfl
  have hbindsScope : BindsScope (signingCrypto (signedScopeOf (some scopeDoc) lunaText)) (fill 32 0)
      (some scopeDoc) := bindsScope_signingCrypto _ rfl
  have hscope : ScopeTyped (some scopeDoc) :=
    ⟨⟨_, rfl, (show Spells (.ofString "a1" (by decide)) "a1" from rfl).wellFormed⟩,
      ⟨_, rfl, (show Spells (.ofString "ada" (by decide)) "ada" from rfl).wellFormed⟩⟩
  obtain ⟨hsnapshots, _, hlisting⟩ := shows_signed_iff honestCrypto (fill 32 0)
  obtain ⟨_, hscopes, _⟩ := shows_signed_iff (signingCrypto (signedScopeOf (some scopeDoc) lunaText)) (fill 32 0)
  exact ⟨(hsnapshots _ _ hbinds).mpr fun _ => typed_honestDoc, (hscopes _ hbindsScope).mpr fun _ => hscope,
    (hlisting _ _ _ _ _ stored_honestListing).1⟩

end LibreServ.Browser
