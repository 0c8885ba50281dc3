import LibreServ.CloudFormat

/-! The bytes a signature covers are those of one purpose and one record only. -/

namespace LibreServ.Cloud

open List

/-! ### Bytes decide values -/

/-- A name and a value, each behind its length. -/
def field (f : String × Bytes) : Bytes :=
  be32 f.1.toUTF8.toList.length ++ (f.1.toUTF8.toList ++ (be32 f.2.length ++ f.2))

theorem canonical_eq_flatMap (fs : List (String × Bytes)) : canonical fs = fs.flatMap field := by
  have hfold : ∀ out, fs.foldl (fun out f => pushLenPrefixed (pushLenPrefixed out f.1.toUTF8.toList) f.2) out
      = out ++ fs.flatMap field := by
    induction fs with
    | nil => exact fun out => (append_nil out).symm
    | cons f fs ih =>
      intro out
      rw [foldl_cons, ih, flatMap_cons]
      simp only [pushLenPrefixed, field, append_assoc]
  exact hfold []

theorem be32_inj {a b : ℕ} (ha : a < 2 ^ 32) (hb : b < 2 ^ 32) (h : be32 a = be32 b) : a = b := by
  rw [← ofBe_be32 ha, ← ofBe_be32 hb, h]

theorem i64Bytes_inj {a b : ℤ} (h : i64Bytes a = i64Bytes b) : a % 2 ^ 64 = b % 2 ^ 64 := by
  have hlt : ∀ z : ℤ, (z % 2 ^ 64).toNat < 2 ^ 64 := fun z => by omega
  have hnat : (a % 2 ^ 64).toNat = (b % 2 ^ 64).toNat := by
    rw [← ofBe_be64 (hlt a), ← ofBe_be64 (hlt b)]
    exact congrArg ofBe h
  omega

theorem toList_loop (bs : ByteArray) (i : ℕ) (r : List UInt8) :
    ByteArray.toList.loop bs i r = r.reverse ++ bs.data.toList.drop i := by
  fun_induction ByteArray.toList.loop bs i r with
  | case1 i r hlt ih =>
    have hlt' : i < bs.data.toList.length := hlt
    have hget : bs.get! i = bs.data.toList[i] := by
      show bs.data[i]! = _
      rw [getElem!_pos bs.data i hlt]
      rfl
    rw [ih, drop_eq_getElem_cons hlt', hget, reverse_cons, append_assoc]
    rfl
  | case2 i r hge =>
    have hge' : bs.data.toList.length ≤ i := Nat.not_lt.mp hge
    rw [drop_of_length_le hge', append_nil]

theorem toUTF8_toList (s : String) : s.toUTF8.toList = s.toList.flatMap String.utf8EncodeChar := by
  have hbytes : s.toUTF8 = (s.toList.flatMap String.utf8EncodeChar).toByteArray := by
    conv_lhs => rw [← String.ofList_toList (s := s)]
    exact String.toByteArray_ofList
  rw [hbytes]
  exact (toList_loop _ 0 []).trans (toList_data_toByteArray)

theorem toUTF8_toList_inj {s t : String} (h : s.toUTF8.toList = t.toUTF8.toList) : s = t := by
  have hdata : ∀ bs : ByteArray, bs.toList = bs.data.toList := fun bs => toList_loop bs 0 []
  rw [hdata, hdata] at h
  exact String.toByteArray_inj.mp (ByteArray.ext (Array.toList_inj.mp h))

/-! ### Fields -/

/-- The lengths that the code asserts. -/
def FieldFits (f : String × Bytes) : Prop := f.1.toUTF8.toList.length < 2 ^ 32 ∧ f.2.length < 2 ^ 32

theorem field_inj {f g : String × Bytes} {x y : Bytes} (hf : FieldFits f) (hg : FieldFits g)
    (h : field f ++ x = field g ++ y) : f = g ∧ x = y := by
  simp only [field, append_assoc] at h
  obtain ⟨hnameLen, hname⟩ := append_inj h rfl
  obtain ⟨hname, hvalueLen⟩ := append_inj hname (be32_inj hf.1 hg.1 hnameLen)
  obtain ⟨hvalueLen, hvalue⟩ := append_inj hvalueLen rfl
  obtain ⟨hvalue, hrest⟩ := append_inj hvalue (be32_inj hf.2 hg.2 hvalueLen)
  exact ⟨Prod.ext (toUTF8_toList_inj hname) hvalue, hrest⟩

theorem field_ne_nil (f : String × Bytes) (x : Bytes) : field f ++ x ≠ [] := by
  intro h
  have hlen := congrArg length h
  simp only [field, length_append, length_be32, length_nil] at hlen
  omega

theorem canonical_injective {fs gs : List (String × Bytes)} (hfs : ∀ f ∈ fs, FieldFits f) (hgs : ∀ g ∈ gs, FieldFits g)
    (h : canonical fs = canonical gs) : fs = gs := by
  rw [canonical_eq_flatMap, canonical_eq_flatMap] at h
  induction fs generalizing gs with
  | nil =>
    cases gs with
    | nil => rfl
    | cons g gs => exact absurd h.symm (field_ne_nil g _)
  | cons f fs ih =>
    cases gs with
    | nil => exact absurd h (field_ne_nil f _)
    | cons g gs =>
      obtain ⟨hhead, htail⟩ := field_inj (hfs f mem_cons_self) (hgs g mem_cons_self) h
      rw [hhead, ih (fun f hf => hfs f (mem_cons_of_mem _ hf)) (fun g hg => hgs g (mem_cons_of_mem _ hg)) htail]

/-! ### Records -/

/-- The ranges of the record's types. A text or a value of 4 GiB stops the signing. -/
structure SnapshotRecord.InRange (r : SnapshotRecord) : Prop where
  lunaId : r.lunaId.toUTF8.toList.length < 2 ^ 32
  protectionId : r.protectionId.toUTF8.toList.length < 2 ^ 32
  snapshotId : r.snapshotId.length < 2 ^ 32
  createdAt : -2 ^ 63 ≤ r.createdAt ∧ r.createdAt < 2 ^ 63
  keyVersion : r.keyVersion < 2 ^ 32
  details : r.details.length < 2 ^ 32

def SnapshotRecord.fields (r : SnapshotRecord) : List (String × Bytes) :=
  [("luna_id", r.lunaId.toUTF8.toList), ("protection_id", r.protectionId.toUTF8.toList), ("snapshot_id", r.snapshotId),
    ("created_at", i64Bytes r.createdAt), ("key_version", be32 r.keyVersion), ("tree_pack_id", r.treePackId.val),
    ("tree_hash", r.treeHash.val), ("meta", r.details)]

/-- The names are those of every record, and none is long. -/
theorem SnapshotRecord.InRange.fields {r : SnapshotRecord} (h : r.InRange) : ∀ f ∈ r.fields, FieldFits f := by
  have hshort : ∀ {s : String}, s ∈ ["luna_id", "protection_id", "snapshot_id", "created_at", "key_version", "tree_pack_id",
      "tree_hash", "meta"] → s.toUTF8.toList.length < 2 ^ 32 := by
    intro s hs
    revert s
    decide +kernel
  have hpack : r.treePackId.val.length = 32 := r.treePackId.property
  have hhash : r.treeHash.val.length = 32 := r.treeHash.property
  simp only [SnapshotRecord.fields, forall_mem_cons]
  refine ⟨⟨hshort (by simp), h.lunaId⟩, ⟨hshort (by simp), h.protectionId⟩, ⟨hshort (by simp), h.snapshotId⟩,
    ⟨hshort (by simp), ?_⟩, ⟨hshort (by simp), ?_⟩, ⟨hshort (by simp), ?_⟩, ⟨hshort (by simp), ?_⟩,
    ⟨hshort (by simp), h.details⟩, fun _ hf => nomatch hf⟩
  · rw [i64Bytes, length_be64]
    decide
  · rw [length_be32]
    decide
  · rw [hpack]
    decide
  · rw [hhash]
    decide

theorem SnapshotRecord.signedBytes_inj {r s : SnapshotRecord} (hr : r.InRange) (hs : s.InRange)
    (h : r.signedBytes = s.signedBytes) : r = s := by
  have hfields : r.fields = s.fields := canonical_injective hr.fields hs.fields h
  simp only [SnapshotRecord.fields, cons.injEq, Prod.mk.injEq, true_and, and_true] at hfields
  obtain ⟨hluna, hprotection, hsnapshot, hcreated, hversion, hpack, hhash, hdetails⟩ := hfields
  have htime : r.createdAt = s.createdAt := by
    have hmod := i64Bytes_inj hcreated
    have hr' := hr.createdAt
    have hs' := hs.createdAt
    omega
  cases r
  cases s
  simp only [SnapshotRecord.mk.injEq]
  exact ⟨toUTF8_toList_inj hluna, toUTF8_toList_inj hprotection, hsnapshot, htime,
    be32_inj hr.keyVersion hs.keyVersion hversion, Subtype.ext hpack, Subtype.ext hhash, hdetails⟩

/-! ### Purposes -/

/-- No byte of the text is zero. -/
def NoZero (domain : String) : Prop := 0 ∉ domain.toUTF8.toList

/-- What stands before the first zero is decided, and what stands behind it. -/
theorem upto_zero {a b x y : Bytes} (ha : 0 ∉ a) (hb : 0 ∉ b) (h : a ++ ([0] ++ x) = b ++ ([0] ++ y)) : a = b ∧ x = y := by
  induction a generalizing b with
  | nil =>
    cases b with
    | nil => exact ⟨rfl, append_cancel_left h⟩
    | cons c b => exact absurd (mem_cons.mpr (.inl (cons.inj h).1)) hb
  | cons c a ih =>
    cases b with
    | nil => exact absurd (mem_cons.mpr (.inl (cons.inj h).1.symm)) ha
    | cons d b =>
      obtain ⟨hhead, htail⟩ := cons.inj h
      obtain ⟨heq, hrest⟩ := ih (fun hmem => ha (mem_cons_of_mem _ hmem)) (fun hmem => hb (mem_cons_of_mem _ hmem)) htail
      exact ⟨by rw [hhead, heq], hrest⟩

theorem signedBytes_inj {d d' : String} {m m' : Bytes} (hd : NoZero d) (hd' : NoZero d')
    (h : signedBytes d m = signedBytes d' m') : d = d' ∧ m = m' := by
  simp only [signedBytes, append_assoc, append_cancel_left_eq] at h
  obtain ⟨hdomain, hbytes⟩ := upto_zero hd hd' h
  exact ⟨toUTF8_toList_inj hdomain, hbytes⟩

/-- Signed bytes are those of one purpose and one record. -/
theorem signed_unambiguous :
    (∀ fs gs : List (String × Bytes), (∀ f ∈ fs, FieldFits f) → (∀ g ∈ gs, FieldFits g) → canonical fs = canonical gs → fs = gs) ∧
    (∀ r s : SnapshotRecord, r.InRange → s.InRange → r.signedBytes = s.signedBytes → r = s) ∧
    (∀ (d d' : String) (m m' : Bytes), NoZero d → NoZero d' → signedBytes d m = signedBytes d' m' → d = d' ∧ m = m') ∧
    ∀ (d d' : String) (r s : SnapshotRecord), NoZero d → NoZero d' → r.InRange → s.InRange →
      signedBytes d r.signedBytes = signedBytes d' s.signedBytes → d = d' ∧ r = s := by
  refine ⟨fun fs gs hfs hgs h => canonical_injective hfs hgs h, fun r s hr hs h => SnapshotRecord.signedBytes_inj hr hs h,
    fun d d' m m' hd hd' h => signedBytes_inj hd hd' h, fun d d' r s hd hd' hr hs h => ?_⟩
  obtain ⟨hdomain, hbytes⟩ := signedBytes_inj hd hd' h
  exact ⟨hdomain, SnapshotRecord.signedBytes_inj hr hs hbytes⟩

/-- A record of a Luna's whose id looks like the field behind it, and the record with the two fields told apart otherwise. -/
def spelled (lunaId protectionId : String) : SnapshotRecord :=
  ⟨lunaId, protectionId, [0, 0, 0, 5], -1, 1, Fixed.fill 32 0, Fixed.fill 32 0, []⟩

theorem spelled_differ : signedBytes "snapshot" (spelled "aprotection_id" "b").signedBytes
    ≠ signedBytes "snapshot" (spelled "a" "protection_idb").signedBytes := by
  have hzero : NoZero "snapshot" := by
    rw [NoZero]
    decide +kernel
  have hrange : ∀ a b : String, a.toUTF8.toList.length < 2 ^ 32 → b.toUTF8.toList.length < 2 ^ 32 → (spelled a b).InRange :=
    fun a b ha hb => ⟨ha, hb, show 4 < _ by decide, show -2 ^ 63 ≤ (-1 : ℤ) ∧ (-1 : ℤ) < 2 ^ 63 by decide, show 1 < _ by decide,
      show 0 < _ by decide⟩
  intro h
  have heq := signed_unambiguous.2.2.2 "snapshot" "snapshot" _ _ hzero hzero
    (hrange _ _ (by rw [toUTF8_toList]; decide +kernel) (by rw [toUTF8_toList]; decide +kernel))
    (hrange _ _ (by rw [toUTF8_toList]; decide +kernel) (by rw [toUTF8_toList]; decide +kernel)) h
  exact absurd (congrArg SnapshotRecord.lunaId heq.2) (by decide)

end LibreServ.Cloud
