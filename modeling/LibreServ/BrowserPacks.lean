import LibreServ.BrowserShows
import LibreServ.CloudPackFormat

/-! Packs and signed fields as the browser reads and writes them (`cloudFormat.js`, `backupCrypto.js`), and fields as
Connect writes them. The browser goes through a pack by positions, which are doubles. It opens what lunad opens, and shows
the same chunks. The primitives are those of lunad. -/

namespace LibreServ.Browser

open List Option Table
open Cloud (Bytes Bytes32 Crypto FieldFits IndexEntry OpenedPack be32 be64 ofBe bytesToHex toFixed take takeLen decodeIndex openPack
  packIndexAad packBodyAad)

def damaged : String := "Part of this backup can't be read. It may be damaged."

def changed : String := "A backup file doesn't match its fingerprint, so it was not used. Try again later."

/-- The message of a `MissingKeyError`. -/
def noKey : String := "Part of this backup can't be opened with the keys you have."

def packVersion : UInt8 := 1

def indexHeaderLen : ℕ := 36

def indexEntryLen : ℕ := 44

def maxSafeInteger : ℕ := 2 ^ 53 - 1

/-! ### Reading by position -/

/-- The sum of two doubles that are integers: it is rounded to 53 bits, and half to even. -/
def add (a b : ℕ) : ℕ :=
  let sum := a + b
  if sum < 2 ^ 53 then sum
  else
    let unit := 2 ^ (sum.log2 - 52)
    let low := sum / unit
    let rest := sum % unit
    if 2 * rest < unit ∨ (2 * rest = unit ∧ low % 2 = 0) then low * unit else (low + 1) * unit

/-- `Uint8Array.slice`. -/
def slice (bytes : Bytes) (start stop : ℕ) : Bytes := (bytes.drop start).take (stop - start)

def u32At (bytes : Bytes) (pos : ℕ) : Except String ℕ :=
  if bytes.length < add pos 4 then .error damaged else .ok (ofBe (slice bytes pos (pos + 4)))

def u64At (bytes : Bytes) (pos : ℕ) : Except String ℕ :=
  if bytes.length < add pos 8 then .error damaged
  else
    let big := ofBe (slice bytes pos (pos + 8))
    if maxSafeInteger < big then .error damaged else .ok big

def sliceChecked (bytes : Bytes) (start len : ℕ) : Except String Bytes :=
  if bytes.length < add start len then .error damaged else .ok (slice bytes start (start + len))

/-! ### Packs -/

/-- An opened pack; its entries go by the hex of the chunk's id. -/
structure Pack where
  scopeId : Bytes
  body : Bytes
  entries : Table (List Char) (ℕ × ℕ)

def Pack.chunk (p : Pack) (idBytes : Bytes) : Option Bytes :=
  match p.entries.get? (bytesToHex idBytes) with
  | none => none
  | some (offset, len) => some (slice p.body offset (offset + len))

/-- One turn of the loop over the index. -/
def addEntry (index : Bytes) (size : ℕ) (entries : Table (List Char) (ℕ × ℕ)) (i : ℕ) :
    Except String (Table (List Char) (ℕ × ℕ)) := do
  let at_ := indexHeaderLen + i * indexEntryLen
  let id := bytesToHex (slice index at_ (at_ + 32))
  let offset ← u64At index (at_ + 32)
  let len ← u32At index (at_ + 32 + 8)
  if size < add offset len then throw damaged
  return entries.put id (offset, len)

def openPackParts (c : Crypto) (bytes : Bytes) (unwrapKey : Bytes → Except String Bytes) : Except String Pack := do
  if bytes.head? ≠ some packVersion then throw damaged
  let wrappedLen ← u32At bytes 1
  let wrapped ← sliceChecked bytes 5 wrappedLen
  let pos := 5 + wrappedLen
  let packKey ← unwrapKey wrapped
  match toFixed 32 packKey with
  | none => throw damaged
  | some packKey => do
    let indexLen ← u32At bytes pos
    let sealedIndex ← sliceChecked bytes (pos + 4) indexLen
    let pos := pos + 4 + indexLen
    let index ← c.decrypt packKey packIndexAad sealedIndex
    let body ← c.decrypt packKey packBodyAad (bytes.drop pos)
    if index.length < indexHeaderLen then throw damaged
    let scopeId := slice index 0 32
    let count ← u32At index 32
    if index.length ≠ indexHeaderLen + count * indexEntryLen then throw damaged
    let entries ← (List.range count).foldlM (addEntry index body.length) Table.empty
    return ⟨scopeId, body, entries⟩

def openPackWith (c : Crypto) (bytes : Bytes) (idHex : List Char) (unwrapKey : Bytes → Except String Bytes) :
    Except String Pack :=
  if bytesToHex (c.packId bytes).val ≠ idHex then .error changed
  else
    match openPackParts c bytes unwrapKey with
    | .ok p => .ok p
    | .error err => .error (if err = noKey then noKey else damaged)

/-! ### Positions and what is behind them -/

variable {bytes a rest wrapped : Bytes} {pos n len : ℕ}

/-- A sum that rounding reaches is no length. -/
theorem lt_add_iff {size a b : ℕ} (h : size < 2 ^ 53) : size < add a b ↔ size < a + b := by
  rw [add]
  split
  · rfl
  rename_i hlarge
  have hsum : 2 ^ 53 ≤ a + b := Nat.not_lt.mp hlarge
  have hlog : 53 ≤ (a + b).log2 := (Nat.le_log2 (by omega)).mpr hsum
  have hpow : 2 ^ 52 * 2 ^ ((a + b).log2 - 52) = 2 ^ (a + b).log2 := by
    rw [← Nat.pow_add]
    congr 1
    omega
  have hle : 2 ^ (a + b).log2 ≤ a + b := Nat.log2_self_le (by omega)
  have hunit : 0 < 2 ^ ((a + b).log2 - 52) := Nat.two_pow_pos _
  have hlow : 2 ^ 52 ≤ (a + b) / 2 ^ ((a + b).log2 - 52) := by
    rw [Nat.le_div_iff_mul_le hunit, hpow]
    exact hle
  have hmul : 2 ^ 53 ≤ (a + b) / 2 ^ ((a + b).log2 - 52) * 2 ^ ((a + b).log2 - 52) := by
    refine le_trans ?_ (Nat.mul_le_mul_right _ hlow)
    rw [hpow]
    exact Nat.pow_le_pow_right (by decide) hlog
  have hmore : (a + b) / 2 ^ ((a + b).log2 - 52) * 2 ^ ((a + b).log2 - 52) ≤
      ((a + b) / 2 ^ ((a + b).log2 - 52) + 1) * 2 ^ ((a + b).log2 - 52) := Nat.mul_le_mul_right _ (Nat.le_succ _)
  simp only
  split <;> omega

theorem slice_append (h : a.length = pos) : slice (a ++ rest) pos (pos + len) = rest.take len := by
  rw [slice, drop_left' h, Nat.add_sub_cancel_left]

theorem u32At_append (hbytes : bytes = a ++ rest) (hsize : bytes.length < 2 ^ 53) (h : a.length = pos) :
    u32At bytes pos = .ok n ↔ ∃ r, rest = be32 n ++ r ∧ n < 2 ^ 32 := by
  subst hbytes
  have hshort : (a ++ rest).length < pos + 4 ↔ rest.length < 4 := by
    rw [length_append]
    omega
  simp only [u32At, lt_add_iff hsize, hshort, slice_append h]
  constructor
  · intro hn
    split at hn
    · cases hn
    · cases hn
      refine ⟨rest.drop 4, ?_⟩
      rw [← Cloud.takeLen_eq_ok, takeLen, Cloud.take, if_neg (by assumption)]
      rfl
  · rintro ⟨r, rfl, hn⟩
    rw [if_neg (by simp), take_left' (Cloud.length_be32 n), Cloud.ofBe_be32 hn]

theorem sliceChecked_append (hbytes : bytes = a ++ rest) (hsize : bytes.length < 2 ^ 53) (h : a.length = pos)
    {s : Bytes} : sliceChecked bytes pos len = .ok s ↔ ∃ r, rest = s ++ r ∧ s.length = len := by
  subst hbytes
  have hshort : (a ++ rest).length < pos + len ↔ rest.length < len := by
    rw [length_append]
    omega
  simp only [sliceChecked, lt_add_iff hsize, hshort, slice_append h]
  constructor
  · intro hs
    split at hs
    · cases hs
    · cases hs
      exact ⟨rest.drop len, (take_append_drop len rest).symm, length_take_of_le (by omega)⟩
  · rintro ⟨r, rfl, hlen⟩
    rw [if_neg (by rw [length_append]; omega), take_left' hlen]

theorem u64At_append (hbytes : bytes = a ++ (be64 n ++ rest)) (hsize : bytes.length < 2 ^ 53) (h : a.length = pos)
    (hn : n < 2 ^ 64) : u64At bytes pos = if maxSafeInteger < n then .error damaged else .ok n := by
  subst hbytes
  have hlong : ¬ (a ++ (be64 n ++ rest)).length < pos + 8 := by
    rw [length_append, length_append, Cloud.length_be64]
    omega
  rw [u64At, if_neg fun hlt => hlong ((lt_add_iff hsize).mp hlt), slice_append h, take_left' (Cloud.length_be64 n),
    Cloud.ofBe_be64 hn]

/-! ### The index -/

section

variable {index : Bytes} {size : ℕ} {e : IndexEntry} {es : List IndexEntry} {entries' : Table (List Char) (ℕ × ℕ)}

theorem length_encodeEntry (e : IndexEntry) : (Cloud.encodeEntry e).length = 44 := by
  rw [Cloud.encodeEntry, length_append, length_append, e.id.property, Cloud.length_be64, Cloud.length_be32]

theorem length_entries (es : List IndexEntry) : (es.flatMap Cloud.encodeEntry).length = es.length * 44 := by
  induction es with
  | nil => rfl
  | cons e es ih =>
    rw [flatMap_cons, length_append, length_encodeEntry, length_cons]
    omega

/-- A turn of the loop reads the entry that stands at its place. -/
theorem addEntry_eq {i : ℕ} (hindex : index = a ++ (Cloud.encodeEntry e ++ rest)) (h : a.length = 36 + i * 44)
    (hsize : index.length < 2 ^ 53) (hbody : size < 2 ^ 53) (he : e.InRange)
    (entries : Table (List Char) (ℕ × ℕ)) : addEntry index size entries i =
      if size < e.offset + e.len then .error damaged else .ok (entries.put (bytesToHex e.id.val) (e.offset, e.len)) := by
  have hid : slice index (indexHeaderLen + i * indexEntryLen) (indexHeaderLen + i * indexEntryLen + 32) = e.id.val := by
    rw [hindex, slice_append (by rw [h, indexHeaderLen, indexEntryLen]), Cloud.encodeEntry, append_assoc,
      append_assoc, take_left' e.id.property]
  have hoffset : u64At index (indexHeaderLen + i * indexEntryLen + 32) =
      if maxSafeInteger < e.offset then .error damaged else .ok e.offset := by
    have hsplit : index = (a ++ e.id.val) ++ (be64 e.offset ++ (be32 e.len ++ rest)) := by
      rw [hindex, Cloud.encodeEntry]
      simp only [append_assoc]
    refine u64At_append hsplit hsize ?_ he.1
    rw [length_append, e.id.property, h, indexHeaderLen, indexEntryLen]
  have hlen : u32At index (indexHeaderLen + i * indexEntryLen + 32 + 8) = .ok e.len := by
    have hsplit : index = (a ++ (e.id.val ++ be64 e.offset)) ++ (be32 e.len ++ rest) := by
      rw [hindex, Cloud.encodeEntry]
      simp only [append_assoc]
    refine (u32At_append hsplit hsize ?_).mpr ⟨rest, rfl, he.2⟩
    rw [length_append, length_append, e.id.property, Cloud.length_be64, h, indexHeaderLen, indexEntryLen]
  have hmax : maxSafeInteger = 2 ^ 53 - 1 := rfl
  simp only [addEntry, hid, hoffset, hlen]
  by_cases hbig : maxSafeInteger < e.offset
  · rw [if_pos hbig, if_pos (by omega)]
    rfl
  rw [if_neg hbig]
  by_cases hpast : size < e.offset + e.len
  · rw [if_pos hpast]
    simp only [bind, Except.bind, if_pos ((lt_add_iff hbody).mpr hpast)]
    rfl
  · rw [if_neg hpast]
    simp only [bind, Except.bind, if_neg fun hlt => hpast ((lt_add_iff hbody).mp hlt)]
    rfl

/-- The entries as the browser keeps them: of two with one id the later counts. -/
def keep (es : List IndexEntry) (entries : Table (List Char) (ℕ × ℕ)) : Table (List Char) (ℕ × ℕ) :=
  es.foldl (fun entries e => entries.put (bytesToHex e.id.val) (e.offset, e.len)) entries

theorem foldlM_addEntry {i : ℕ} (hindex : index = a ++ es.flatMap Cloud.encodeEntry) (h : a.length = 36 + i * 44)
    (hsize : index.length < 2 ^ 53) (hbody : size < 2 ^ 53) (hes : ∀ e ∈ es, e.InRange)
    (entries : Table (List Char) (ℕ × ℕ)) : (List.range' i es.length).foldlM (addEntry index size) entries = .ok entries' ↔
      (∀ e ∈ es, e.offset + e.len ≤ size) ∧ entries' = keep es entries := by
  induction es generalizing a i entries with
  | nil =>
    constructor
    · intro hrun
      cases hrun
      exact ⟨fun e he => (not_mem_nil he).elim, rfl⟩
    · rintro ⟨-, rfl⟩
      rfl
  | cons e es ih =>
    rw [flatMap_cons] at hindex
    have hturn := addEntry_eq hindex h hsize hbody (hes e mem_cons_self) entries
    rw [length_cons, range'_succ, foldlM_cons, hturn]
    by_cases hpast : size < e.offset + e.len
    · rw [if_pos hpast]
      constructor
      · intro hrun
        cases hrun
      · rintro ⟨hinside, -⟩
        exact absurd (hinside e mem_cons_self) (by omega)
    · have hrest := ih (a := a ++ Cloud.encodeEntry e) (i := i + 1) (by rw [hindex, append_assoc])
        (by rw [length_append, length_encodeEntry]; omega) (fun e' he' => hes e' (mem_cons_of_mem e he'))
        (entries.put (bytesToHex e.id.val) (e.offset, e.len))
      rw [if_neg hpast, forall_mem_cons]
      refine hrest.trans ?_
      rw [and_assoc]
      exact (and_iff_right (by omega)).symm

theorem bytesToHex_inj {a b : Bytes} (h : bytesToHex a = bytesToHex b) : a = b := by
  have hback := hexBytes_bytesToHex a
  rw [h, hexBytes_bytesToHex] at hback
  exact (some.inj hback).symm

/-- Both readers find the same entry for an id. -/
theorem get?_keep (es : List IndexEntry) (id : Bytes32) :
    (keep es Table.empty).get? (bytesToHex id.val) = (Cloud.indexOf es).get? id := by
  induction es using reverseRecOn with
  | nil => rw [keep, Cloud.indexOf, foldl_nil, foldl_nil, get?_empty, get?_empty]
  | append_singleton es e ih =>
    rw [keep, Cloud.indexOf, foldl_append, foldl_append]
    simp only [foldl_cons, foldl_nil, get?_put]
    by_cases hid : id = e.id
    · rw [if_pos hid, if_pos (by rw [hid])]
    · rw [if_neg hid, if_neg fun hhex => hid (Subtype.ext (bytesToHex_inj hhex))]
      exact ih

/-- As many bytes as there are entries are some entries. -/
theorem decodeEntries_of_length {count : ℕ} (h : bytes.length = count * 44) :
    ∃ es, Cloud.decodeEntries count bytes = .ok (es, []) := by
  induction count generalizing bytes with
  | zero =>
    rw [length_eq_zero_iff.mp (by omega : bytes.length = 0)]
    exact ⟨[], rfl⟩
  | succ count ih =>
    have hrest : (bytes.drop 44).length = count * 44 := by
      rw [length_drop]
      omega
    obtain ⟨es, hes⟩ := ih hrest
    have hid : (bytes.take 32).length = 32 := length_take_of_le (by omega)
    have hoffset : ((bytes.drop 32).take 8).length = 8 := by
      rw [length_take, length_drop]
      omega
    have hlen : ((bytes.drop 40).take 4).length = 4 := by
      rw [length_take, length_drop]
      omega
    obtain ⟨hall, hcount, hrange⟩ := Cloud.decodeEntries_eq_ok.mp hes
    have hoffsetLt := Cloud.ofBe_lt ((bytes.drop 32).take 8)
    have hlenLt := Cloud.ofBe_lt ((bytes.drop 40).take 4)
    rw [hoffset] at hoffsetLt
    rw [hlen] at hlenLt
    refine ⟨⟨⟨bytes.take 32, hid⟩, ofBe ((bytes.drop 32).take 8), ofBe ((bytes.drop 40).take 4)⟩ :: es, ?_⟩
    refine Cloud.decodeEntries_eq_ok.mpr ⟨?_, congrArg (· + 1) hcount,
      forall_mem_cons.mpr ⟨⟨hoffsetLt, hlenLt⟩, hrange⟩⟩
    rw [flatMap_cons, Cloud.encodeEntry, Cloud.be64_ofBe hoffset, Cloud.be32_ofBe hlen, append_assoc,
      append_assoc, append_assoc, ← hall]
    have h₁ : bytes.take 32 ++ bytes.drop 32 = bytes := take_append_drop 32 bytes
    have h₂ : (bytes.drop 32).take 8 ++ bytes.drop 40 = bytes.drop 32 := by
      rw [show bytes.drop 40 = (bytes.drop 32).drop 8 by rw [drop_drop], take_append_drop]
    have h₃ : (bytes.drop 40).take 4 ++ bytes.drop 44 = bytes.drop 40 := by
      rw [show bytes.drop 44 = (bytes.drop 40).drop 4 by rw [drop_drop], take_append_drop]
    rw [h₃, h₂, h₁]

theorem encodeIndex_some {scopeId : Bytes32} : Cloud.encodeIndex scopeId es = some index ↔
    es.length < 2 ^ 32 ∧ index = scopeId.val ++ (be32 es.length ++ es.flatMap Cloud.encodeEntry) := by
  rw [Cloud.encodeIndex, Cloud.pushLen]
  split
  · rename_i hcount
    simp only [hcount, true_and, bind_eq_bind, bind_some, pure, some.injEq, append_assoc, eq_comm]
  · rename_i hcount
    exact iff_of_false (by simp) fun h => hcount h.1

/-- What the browser makes of an index: it has the length that goes with its count, and the loop goes through it. -/
def Indexed (index : Bytes) (size : ℕ) (scopeId : Bytes) (entries' : Table (List Char) (ℕ × ℕ)) : Prop :=
  ∃ count, ¬ index.length < indexHeaderLen ∧ u32At index 32 = .ok count ∧
    index.length = indexHeaderLen + count * indexEntryLen ∧ slice index 0 32 = scopeId ∧
    (List.range count).foldlM (addEntry index size) Table.empty = .ok entries'

theorem run_encoded (scopeId : Bytes32) (h : index = scopeId.val ++ (be32 es.length ++ es.flatMap Cloud.encodeEntry))
    (hsize : index.length < 2 ^ 53) (hbody : size < 2 ^ 53) (hes : ∀ e ∈ es, e.InRange) :
    (range es.length).foldlM (addEntry index size) Table.empty = .ok entries' ↔
      (∀ e ∈ es, e.offset + e.len ≤ size) ∧ entries' = keep es Table.empty := by
  rw [range_eq_range']
  refine foldlM_addEntry (a := scopeId.val ++ be32 es.length) ?_ ?_ hsize hbody hes Table.empty
  · rw [h, append_assoc]
  · rw [length_append, scopeId.property, Cloud.length_be32]

theorem indexed_iff (hsize : index.length < 2 ^ 53) (hbody : size < 2 ^ 53) {scopeId : Bytes} :
    Indexed index size scopeId entries' ↔ ∃ (id : Bytes32) (es : List IndexEntry), decodeIndex index = .ok (id, es) ∧
      id.val = scopeId ∧ (∀ e ∈ es, e.offset + e.len ≤ size) ∧ entries' = keep es Table.empty := by
  rw [Indexed, indexHeaderLen, indexEntryLen]
  constructor
  · rintro ⟨count, hheader, hcount, hlength, hscope, hrun⟩
    have hid : (index.take 32).length = 32 := length_take_of_le (by omega)
    have hsplit : index = index.take 32 ++ index.drop 32 := (take_append_drop 32 index).symm
    obtain ⟨rest, hrest, hlt⟩ := (u32At_append hsplit hsize hid).mp hcount
    have hlen : rest.length = count * 44 := by
      have hdrop := congrArg length hrest
      rw [length_drop, length_append, Cloud.length_be32] at hdrop
      omega
    obtain ⟨es, hes⟩ := decodeEntries_of_length hlen
    obtain ⟨hall, rfl, hrange⟩ := Cloud.decodeEntries_eq_ok.mp hes
    rw [append_nil] at hall
    have hwhole : index = index.take 32 ++ (be32 es.length ++ es.flatMap Cloud.encodeEntry) := by
      rw [← hall, ← hrest, take_append_drop]
    obtain ⟨hinside, hentries⟩ := (run_encoded ⟨index.take 32, hid⟩ hwhole hsize hbody hrange).mp hrun
    exact ⟨⟨index.take 32, hid⟩, es, Cloud.decodeIndex_eq_ok.mpr ⟨encodeIndex_some.mpr ⟨hlt, hwhole⟩, hrange⟩, hscope,
      hinside, hentries⟩
  · rintro ⟨id, es, h, rfl, hinside, hentries⟩
    obtain ⟨hindex, hrange⟩ := Cloud.decodeIndex_eq_ok.mp h
    obtain ⟨hcount, hwhole⟩ := encodeIndex_some.mp hindex
    have hlength : index.length = 36 + es.length * 44 := by
      rw [hwhole, length_append, length_append, Cloud.length_be32, length_entries]
      omega
    refine ⟨es.length, by omega, (u32At_append hwhole hsize id.property).mpr ⟨_, rfl, hcount⟩, hlength, ?_,
      (run_encoded id hwhole hsize hbody hrange).mpr ⟨hinside, hentries⟩⟩
    rw [hwhole]
    exact take_left' id.property

end

/-! ### Opening -/

section

variable {c : Crypto} {unwrapKey : Bytes → Except String Bytes32}

/-- The parts of a pack that opens. -/
def Opens (c : Crypto) (bytes : Bytes) (unwrapKey : Bytes → Except String Bytes32) (scopeId : Bytes32)
    (es : List IndexEntry) (plain : Bytes) : Prop :=
  ∃ wrapped packKey sealedIndex rest index,
    bytes = 1 :: (be32 wrapped.length ++ (wrapped ++ (be32 sealedIndex.length ++ (sealedIndex ++ rest)))) ∧
      wrapped.length < 2 ^ 32 ∧ sealedIndex.length < 2 ^ 32 ∧ unwrapKey wrapped = .ok packKey ∧
      c.decrypt packKey packIndexAad sealedIndex = .ok index ∧ decodeIndex index = .ok (scopeId, es) ∧
      c.decrypt packKey packBodyAad rest = .ok plain ∧ ∀ e ∈ es, e.offset + e.len ≤ plain.length

theorem insertEntries_eq_ok {size : ℕ} {es : List IndexEntry} {map map' : Table Bytes32 (ℕ × ℕ)} :
    Cloud.insertEntries size es map = .ok map' ↔ (∀ e ∈ es, e.offset + e.len ≤ size) ∧
      map' = es.foldl (fun map e => map.put e.id (e.offset, e.len)) map := by
  induction es generalizing map with
  | nil =>
    constructor
    · intro h
      cases h
      exact ⟨fun e he => (not_mem_nil he).elim, rfl⟩
    · rintro ⟨-, rfl⟩
      rfl
  | cons e es ih =>
    rw [Cloud.insertEntries, forall_mem_cons]
    split
    · rename_i hpast
      constructor
      · intro h
        cases h
      · rintro ⟨⟨hinside, -⟩, -⟩
        exact absurd hinside (by omega)
    · rename_i hinside
      rw [ih, and_assoc]
      exact (and_iff_right (by omega)).symm

theorem openPack_eq_ok {id : Bytes32} {p : OpenedPack} : openPack c bytes id unwrapKey = .ok p ↔
    c.packId bytes = id ∧ ∃ scopeId es plain, Opens c bytes unwrapKey scopeId es plain ∧
      p = ⟨scopeId, plain, Cloud.indexOf es⟩ := by
  constructor
  · intro h
    simp only [openPack] at h
    split at h
    · cases h
    rename_i hid
    obtain ⟨⟨version, rest₁⟩, hversion, h₁⟩ := Cloud.bind_eq_ok.mp h
    simp only at h₁
    split at h₁
    · cases h₁
    rename_i hone
    obtain ⟨⟨wrappedLen, rest₂⟩, hwrappedLen, h₂⟩ := Cloud.bind_eq_ok.mp h₁
    obtain ⟨⟨wrapped, rest₃⟩, hwrapped, h₃⟩ := Cloud.bind_eq_ok.mp h₂
    obtain ⟨packKey, hkey, h₄⟩ := Cloud.bind_eq_ok.mp h₃
    obtain ⟨⟨indexLen, rest₄⟩, hindexLen, h₅⟩ := Cloud.bind_eq_ok.mp h₄
    obtain ⟨⟨sealedIndex, rest₅⟩, hsealed, h₆⟩ := Cloud.bind_eq_ok.mp h₅
    obtain ⟨index, hindex, h₇⟩ := Cloud.bind_eq_ok.mp h₆
    obtain ⟨⟨scopeId, es⟩, hes, h₈⟩ := Cloud.bind_eq_ok.mp h₇
    obtain ⟨plain, hplain, h₉⟩ := Cloud.bind_eq_ok.mp h₈
    obtain ⟨map, hmap, hp⟩ := Cloud.bind_eq_ok.mp h₉
    obtain ⟨hinside, rfl⟩ := insertEntries_eq_ok.mp hmap
    cases hp
    obtain ⟨rfl, -⟩ := Cloud.take_eq_ok.mp hversion
    obtain ⟨rfl, hwrappedLt⟩ := Cloud.takeLen_eq_ok.mp hwrappedLen
    obtain ⟨rfl, rfl⟩ := Cloud.take_eq_ok.mp hwrapped
    obtain ⟨rfl, hindexLt⟩ := Cloud.takeLen_eq_ok.mp hindexLen
    obtain ⟨rfl, rfl⟩ := Cloud.take_eq_ok.mp hsealed
    refine ⟨not_not.mp hid, scopeId, es, plain, ⟨wrapped, packKey, sealedIndex, rest₅, index, ?_, hwrappedLt, hindexLt,
      hkey, hindex, hes, hplain, hinside⟩, rfl⟩
    rw [not_not.mp hone]
    rfl
  · rintro ⟨hid, scopeId, es, plain, ⟨wrapped, packKey, sealedIndex, rest, index, rfl, hwrappedLt, hindexLt, hkey, hindex,
      hes, hplain, hinside⟩, rfl⟩
    have hversion : Cloud.take 1 (1 :: (be32 wrapped.length ++ (wrapped ++ (be32 sealedIndex.length ++ (sealedIndex ++ rest)))))
        = .ok ([1], be32 wrapped.length ++ (wrapped ++ (be32 sealedIndex.length ++ (sealedIndex ++ rest)))) :=
      Cloud.take_eq_ok.mpr ⟨rfl, rfl⟩
    have hmap : Cloud.insertEntries plain.length es Table.empty = .ok (Cloud.indexOf es) :=
      insertEntries_eq_ok.mpr ⟨hinside, rfl⟩
    rw [openPack, if_neg (not_not.mpr hid)]
    simp only [bind, Except.bind, hversion, Cloud.takeLen_append _ hwrappedLt, Cloud.take_append _ rfl, hkey,
      Cloud.takeLen_append _ hindexLt, hindex, hes, hplain, hmap]
    rfl

section

variable (hlaw : ∀ k n aad sealed m, c.aeadDecrypt k n aad sealed = some m → m.length ≤ sealed.length)
include hlaw

theorem length_decrypt
    {k : Bytes32} {aad sealed m : Bytes} (h : c.decrypt k aad sealed = .ok m) : m.length ≤ sealed.length := by
  rw [Crypto.decrypt] at h
  split at h
  · cases h
  split at h
  · cases h
  split at h
  · rename_i m' hopen
    cases h
    have hle := hlaw _ _ _ _ _ hopen
    rw [length_drop] at hle
    omega
  · cases h

theorem shorter {packKey : Bytes32} {sealedIndex rest index plain : Bytes}
    (hbytes : bytes = 1 :: (be32 wrapped.length ++ (wrapped ++ (be32 sealedIndex.length ++ (sealedIndex ++ rest)))))
    (hindex : c.decrypt packKey packIndexAad sealedIndex = .ok index) (hplain : c.decrypt packKey packBodyAad rest = .ok plain) :
    index.length ≤ bytes.length ∧ plain.length ≤ bytes.length := by
  have hindexLe := length_decrypt hlaw hindex
  have hplainLe := length_decrypt hlaw hplain
  rw [hbytes]
  simp only [length_cons, length_append]
  omega

end

/-- The function that lunad takes, as the browser's callers write it. -/
def unwrapBytes (unwrapKey : Bytes → Except String Bytes32) (wrapped : Bytes) : Except String Bytes :=
  (unwrapKey wrapped).map (·.val)

/-- What the browser reads from the front of a pack, and what is behind it. -/
def Headed (bytes : Bytes) (wrappedLen : ℕ) (wrapped : Bytes) (indexLen : ℕ) (sealedIndex rest : Bytes) : Prop :=
  bytes.head? = some packVersion ∧ u32At bytes 1 = .ok wrappedLen ∧ sliceChecked bytes 5 wrappedLen = .ok wrapped ∧
    u32At bytes (5 + wrappedLen) = .ok indexLen ∧ sliceChecked bytes (5 + wrappedLen + 4) indexLen = .ok sealedIndex ∧
    bytes.drop (5 + wrappedLen + 4 + indexLen) = rest

theorem headed_iff (hsize : bytes.length < 2 ^ 53) {wrappedLen indexLen : ℕ} {sealedIndex : Bytes} :
    Headed bytes wrappedLen wrapped indexLen sealedIndex rest ↔
      bytes = 1 :: (be32 wrapped.length ++ (wrapped ++ (be32 sealedIndex.length ++ (sealedIndex ++ rest)))) ∧
        wrapped.length = wrappedLen ∧ sealedIndex.length = indexLen ∧ wrappedLen < 2 ^ 32 ∧ indexLen < 2 ^ 32 := by
  have hlen : ([1] ++ be32 wrappedLen : Bytes).length = 5 := rfl
  constructor
  · rintro ⟨hversion, hwrappedLen, hwrapped, hindexLen, hsealed, hrest⟩
    obtain ⟨rest₁, hbytes₁⟩ : ∃ rest, bytes = [1] ++ rest := by
      cases bytes with
      | nil => cases hversion
      | cons ch rest =>
        obtain rfl : ch = packVersion := some.inj hversion
        exact ⟨rest, rfl⟩
    obtain ⟨rest₂, rfl, hwrappedLt⟩ := (u32At_append hbytes₁ hsize rfl).mp hwrappedLen
    have hbytes₂ : bytes = ([1] ++ be32 wrappedLen) ++ rest₂ := hbytes₁.trans (append_assoc _ _ _).symm
    obtain ⟨rest₃, rfl, hwrappedIs⟩ := (sliceChecked_append hbytes₂ hsize hlen).mp hwrapped
    have hbytes₃ : bytes = ([1] ++ be32 wrappedLen ++ wrapped) ++ rest₃ := hbytes₂.trans (append_assoc _ _ _).symm
    have hlen₃ : ([1] ++ be32 wrappedLen ++ wrapped : Bytes).length = 5 + wrappedLen := by
      rw [length_append, hlen, hwrappedIs]
    obtain ⟨rest₄, rfl, hindexLt⟩ := (u32At_append hbytes₃ hsize hlen₃).mp hindexLen
    have hbytes₄ : bytes = ([1] ++ be32 wrappedLen ++ wrapped ++ be32 indexLen) ++ rest₄ :=
      hbytes₃.trans (append_assoc _ _ _).symm
    have hlen₄ : ([1] ++ be32 wrappedLen ++ wrapped ++ be32 indexLen : Bytes).length = 5 + wrappedLen + 4 := by
      rw [length_append, hlen₃, Cloud.length_be32]
    obtain ⟨rest₅, rfl, hindexIs⟩ := (sliceChecked_append hbytes₄ hsize hlen₄).mp hsealed
    have hbytes₅ : bytes = ([1] ++ be32 wrappedLen ++ wrapped ++ be32 indexLen ++ sealedIndex) ++ rest₅ :=
      hbytes₄.trans (append_assoc _ _ _).symm
    have hbehind : bytes.drop (5 + wrappedLen + 4 + indexLen) = rest₅ := by
      rw [hbytes₅]
      exact drop_left' (by rw [length_append, hlen₄, hindexIs])
    rw [hbehind] at hrest
    subst hrest hwrappedIs hindexIs
    exact ⟨hbytes₁, rfl, rfl, hwrappedLt, hindexLt⟩
  · rintro ⟨hbytes, rfl, rfl, hwrappedLt, hindexLt⟩
    have hbytes₁ : bytes = [1] ++ (be32 wrapped.length ++ (wrapped ++ (be32 sealedIndex.length ++ (sealedIndex ++ rest)))) :=
      hbytes
    have hbytes₂ : bytes = ([1] ++ be32 wrapped.length) ++ (wrapped ++ (be32 sealedIndex.length ++ (sealedIndex ++ rest))) :=
      hbytes₁
    have hbytes₃ : bytes = ([1] ++ be32 wrapped.length ++ wrapped) ++
        (be32 sealedIndex.length ++ (sealedIndex ++ rest)) := hbytes₂.trans (append_assoc _ _ _).symm
    have hlen₃ : ([1] ++ be32 wrapped.length ++ wrapped : Bytes).length = 5 + wrapped.length := by
      rw [length_append, hlen]
    have hbytes₄ : bytes = ([1] ++ be32 wrapped.length ++ wrapped ++ be32 sealedIndex.length) ++ (sealedIndex ++ rest) :=
      hbytes₃.trans (append_assoc _ _ _).symm
    have hlen₄ : ([1] ++ be32 wrapped.length ++ wrapped ++ be32 sealedIndex.length : Bytes).length =
        5 + wrapped.length + 4 := by
      rw [length_append, hlen₃, Cloud.length_be32]
    refine ⟨by rw [hbytes]; rfl, (u32At_append hbytes₁ hsize rfl).mpr ⟨_, rfl, hwrappedLt⟩,
      (sliceChecked_append hbytes₂ hsize hlen).mpr ⟨_, rfl, rfl⟩, (u32At_append hbytes₃ hsize hlen₃).mpr ⟨_, rfl, hindexLt⟩,
      (sliceChecked_append hbytes₄ hsize hlen₄).mpr ⟨_, rfl, rfl⟩, ?_⟩
    rw [hbytes₄.trans (append_assoc _ _ _).symm]
    exact drop_left' (by rw [length_append, hlen₄])

theorem unwrapBytes_eq_ok {key : Bytes} : unwrapBytes unwrapKey wrapped = .ok key ↔
    ∃ packKey, unwrapKey wrapped = .ok packKey ∧ packKey.val = key := by
  rw [unwrapBytes]
  cases unwrapKey wrapped with
  | error err | ok packKey => simp [Except.map]

section

variable (hlaw : ∀ k n aad sealed m, c.aeadDecrypt k n aad sealed = some m → m.length ≤ sealed.length)
  (hsize : bytes.length < 2 ^ 53)
include hlaw hsize

theorem openPackParts_eq_ok {b : Pack} : openPackParts c bytes (unwrapBytes unwrapKey) = .ok b ↔
      ∃ scopeId es plain, Opens c bytes unwrapKey scopeId es plain ∧ b = ⟨scopeId.val, plain, keep es Table.empty⟩ := by
  constructor
  · intro h
    simp only [openPackParts] at h
    split at h
    · cases h
    rename_i hversion
    obtain ⟨wrappedLen, hwrappedLen, h₁⟩ := Cloud.bind_eq_ok.mp h
    obtain ⟨wrapped, hwrapped, h₂⟩ := Cloud.bind_eq_ok.mp h₁
    obtain ⟨key, hkey, h₃⟩ := Cloud.bind_eq_ok.mp h₂
    obtain ⟨packKey, hpackKey, rfl⟩ := unwrapBytes_eq_ok.mp hkey
    simp only [Cloud.Crypto.toFixed_val] at h₃
    obtain ⟨indexLen, hindexLen, h₄⟩ := Cloud.bind_eq_ok.mp h₃
    obtain ⟨sealedIndex, hsealed, h₅⟩ := Cloud.bind_eq_ok.mp h₄
    obtain ⟨index, hindex, h₆⟩ := Cloud.bind_eq_ok.mp h₅
    obtain ⟨plain, hplain, h₇⟩ := Cloud.bind_eq_ok.mp h₆
    split at h₇
    · cases h₇
    rename_i hheader
    obtain ⟨count, hcount, h₈⟩ := Cloud.bind_eq_ok.mp h₇
    split at h₈
    · cases h₈
    rename_i hlength
    obtain ⟨entries, hentries, hb⟩ := Cloud.bind_eq_ok.mp h₈
    cases hb
    obtain ⟨hbytes, rfl, rfl, hwrappedLt, hindexLt⟩ := (headed_iff hsize).mp
      ⟨not_not.mp hversion, hwrappedLen, hwrapped, hindexLen, hsealed, rfl⟩
    have hsizes := shorter hlaw hbytes hindex hplain
    obtain ⟨scopeId, es, hes, hscope, hinside, rfl⟩ := (indexed_iff (hsizes.1.trans_lt hsize)
      (hsizes.2.trans_lt hsize)).mp ⟨count, hheader, hcount, not_not.mp hlength, rfl, hentries⟩
    exact ⟨scopeId, es, plain, ⟨wrapped, packKey, sealedIndex, _, index, hbytes, hwrappedLt, hindexLt, hpackKey, hindex,
      hes, hplain, hinside⟩, by rw [hscope]⟩
  · rintro ⟨scopeId, es, plain, ⟨wrapped, packKey, sealedIndex, rest, index, hbytes, hwrappedLt, hindexLt, hpackKey, hindex,
      hes, hplain, hinside⟩, rfl⟩
    have hsizes := shorter hlaw hbytes hindex hplain
    obtain ⟨hversion, hwrappedLen, hwrapped, hindexLen, hsealed, hrest⟩ :=
      (headed_iff hsize).mpr ⟨hbytes, rfl, rfl, hwrappedLt, hindexLt⟩
    obtain ⟨count, hheader, hcount, hlength, hscope, hentries⟩ := (indexed_iff (hsizes.1.trans_lt hsize)
      (hsizes.2.trans_lt hsize)).mpr ⟨scopeId, es, hes, rfl, hinside, rfl⟩
    have hkey : unwrapBytes unwrapKey wrapped = .ok packKey.val := unwrapBytes_eq_ok.mpr ⟨packKey, hpackKey, rfl⟩
    rw [openPackParts, if_neg (not_not.mpr hversion)]
    simp only [bind, Except.bind, hwrappedLen, hwrapped, hkey, Cloud.Crypto.toFixed_val, hindexLen, hsealed, hindex, hrest,
      hplain, if_neg hheader, hcount, if_neg (not_not.mpr hlength), hentries, hscope]
    rfl

theorem openPackWith_eq_ok {id : Bytes32} {b : Pack} :
    openPackWith c bytes (bytesToHex id.val) (unwrapBytes unwrapKey) = .ok b ↔ c.packId bytes = id ∧
      ∃ scopeId es plain, Opens c bytes unwrapKey scopeId es plain ∧ b = ⟨scopeId.val, plain, keep es Table.empty⟩ := by
  rw [← openPackParts_eq_ok hlaw hsize, openPackWith]
  by_cases hid : c.packId bytes = id
  · rw [if_neg (not_not.mpr (by rw [hid]))]
    cases openPackParts c bytes (unwrapBytes unwrapKey) with
    | ok p => simp [hid]
    | error err => simp
  · rw [if_pos fun hhex => hid (Subtype.ext (bytesToHex_inj hhex))]
    simp [hid]

end

end

/-! ### Fields -/

/-- `push_len_prefixed`, which panics on a field of 4 GiB. -/
def pushLenPrefixed (out bytes : Bytes) : Option Bytes := (Cloud.pushLen out bytes.length).map (· ++ bytes)

/-- lunad's `canonical`. -/
def canonicalLuna (fields : List (String × Bytes)) : Option Bytes :=
  fields.foldlM (fun out f => do
    let out ← pushLenPrefixed out f.1.toUTF8.toList
    pushLenPrefixed out f.2) []

/-- `setUint32` takes the length modulo 2 ^ 32. -/
def lengthPrefixed (bytes : Bytes) : Bytes := be32 (bytes.length % 2 ^ 32) ++ bytes

/-- The browser's `canonical`. -/
def canonicalBrowser (fields : List (String × Bytes)) : Bytes :=
  (fields.flatMap fun f => [lengthPrefixed f.1.toUTF8.toList, lengthPrefixed f.2]).flatten

/-- Connect's `lunaCanonical`, on bytes; `uint32` takes the length modulo 2 ^ 32. -/
def lunaCanonical (fields : List (Bytes × Bytes)) : Bytes :=
  fields.foldl (fun buf f =>
    buf ++ be32 (f.1.length % 2 ^ 32) ++ f.1 ++ be32 (f.2.length % 2 ^ 32) ++ f.2) []

instance (f : String × Bytes) : Decidable (FieldFits f) := inferInstanceAs (Decidable (_ ∧ _))

section

variable {fields : List (String × Bytes)} (h : ∀ f ∈ fields, FieldFits f)
include h

theorem canonicalLuna_eq : canonicalLuna fields = some (Cloud.canonical fields) := by
  rw [canonicalLuna, Cloud.canonical]
  generalize ([] : Bytes) = out
  induction fields generalizing out with
  | nil => rfl
  | cons f fields ih =>
    obtain ⟨hname, hvalue⟩ := h f mem_cons_self
    rw [foldlM_cons, foldl_cons, ← ih fun g hg => h g (mem_cons_of_mem f hg)]
    simp only [pushLenPrefixed, Cloud.pushLen, if_pos hname, if_pos hvalue, map_some, bind_eq_bind,
      bind_some, Cloud.pushLenPrefixed]

theorem canonicalBrowser_eq : canonicalBrowser fields = Cloud.canonical fields := by
  rw [Cloud.canonical_eq_flatMap, canonicalBrowser]
  induction fields with
  | nil => rfl
  | cons f fields ih =>
    obtain ⟨hname, hvalue⟩ := h f mem_cons_self
    rw [flatMap_cons, flatMap_cons, flatten_append, ih fun g hg => h g (mem_cons_of_mem f hg)]
    simp only [lengthPrefixed, Nat.mod_eq_of_lt hname, Nat.mod_eq_of_lt hvalue, Cloud.field, flatten_cons,
      flatten_nil, append_nil, append_assoc]

theorem lunaCanonical_eq : lunaCanonical (fields.map fun f => (f.1.toUTF8.toList, f.2)) = Cloud.canonical fields := by
  rw [lunaCanonical, foldl_map]
  apply foldl_ext
  intro out f hf
  obtain ⟨hname, hvalue⟩ := h f hf
  rw [Nat.mod_eq_of_lt hname, Nat.mod_eq_of_lt hvalue, Cloud.pushLenPrefixed, Cloud.pushLenPrefixed]

end

/-! ### The same bytes -/

/-- Both readers refuse a pack, or both give its scope and its chunks alike. -/
def Alike : Except String OpenedPack → Except String Pack → Prop
  | .ok p, .ok b => b.scopeId = p.scopeId.val ∧ ∀ id : Bytes32, b.chunk id.val = p.chunk id
  | .error _, .error _ => True
  | _, _ => False

theorem toyCrypto_shorter (k : Bytes32) (n : Cloud.Fixed Cloud.nonceLen) (aad sealed m : Bytes)
    (h : Cloud.toyCrypto.aeadDecrypt k n aad sealed = some m) : m.length ≤ sealed.length := by
  have hdrop : (if sealed.take 32 = k.val then some (sealed.drop 32) else none) = some m := h
  split at hdrop
  · cases hdrop
    rw [length_drop]
    exact Nat.sub_le _ _
  · cases hdrop

def emptyPackKey : Bytes32 := Cloud.Fixed.fill 32 7

/-- A pack without chunks. -/
def emptyPack : Bytes :=
  let sealedIndex := Cloud.toyCrypto.encrypt emptyPackKey (Cloud.Fixed.fill Cloud.nonceLen 0) packIndexAad
    (List.replicate 32 5 ++ be32 0)
  1 :: (be32 0 ++ (be32 sealedIndex.length ++ (sealedIndex ++
    Cloud.toyCrypto.encrypt emptyPackKey (Cloud.Fixed.fill Cloud.nonceLen 0) packBodyAad [1, 2])))

@[irreducible] def emptyPackId : Bytes32 := Cloud.toyCrypto.packId emptyPack

/-- It opens, and to what is in it. -/
example : (openPack Cloud.toyCrypto emptyPack emptyPackId fun _ => .ok emptyPackKey).toOption.map (·.plain) =
    some [1, 2] := by decide +kernel

end LibreServ.Browser
