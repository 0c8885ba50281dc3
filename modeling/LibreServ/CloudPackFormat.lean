import LibreServ.CloudFormat

/-! The pack format in both directions: a sealed pack opens to the chunks that were added, an index is accepted in its one
spelling only, and whatever opens has an index that lies in the body. -/

namespace LibreServ.Cloud

open List Option Table Fixed

variable {entries : List IndexEntry} {b : PackBuilder} {bytes rest : Bytes} {id : Bytes32}

theorem bind_eq_ok {ε α β : Type} {x : Except ε α} {f : α → Except ε β} {b : β} :
    (x >>= f) = .ok b ↔ ∃ a, x = .ok a ∧ f a = .ok b := by
  cases x with
  | error e | ok a => simp [bind, Except.bind]

/-! ### The index -/

theorem ofBe_append (a b : Bytes) : ofBe (a ++ b) = ofBe a * 256 ^ b.length + ofBe b := by
  have hfold : ∀ (b : Bytes) (n : ℕ), b.foldl (fun n b => n * 256 + b.toNat) n = n * 256 ^ b.length + ofBe b := by
    intro b
    induction b with
    | nil => exact fun n => by simp [ofBe]
    | cons x b ih =>
      intro n
      have hx : ofBe (x :: b) = x.toNat * 256 ^ b.length + ofBe b := by
        rw [ofBe, foldl_cons, ih, Nat.zero_add]
      calc (x :: b).foldl (fun n b => n * 256 + b.toNat) n
          = (n * 256 + x.toNat) * 256 ^ b.length + ofBe b := ih _
        _ = n * (256 * 256 ^ b.length) + x.toNat * 256 ^ b.length + ofBe b := by rw [Nat.add_mul, Nat.mul_assoc]
        _ = n * 256 ^ (x :: b).length + ofBe (x :: b) := by
          rw [hx, length_cons, Nat.pow_succ, Nat.mul_comm 256, Nat.add_assoc]
  rw [ofBe, foldl_append, hfold]
  rfl

theorem ofBe_lt (bytes : Bytes) : ofBe bytes < 256 ^ bytes.length := by
  induction bytes with
  | nil => decide
  | cons x bytes ih =>
    have hx := x.toNat_lt
    have heq : ofBe (x :: bytes) = x.toNat * 256 ^ bytes.length + ofBe bytes := by
      have happ := ofBe_append [x] bytes
      rw [singleton_append] at happ
      rw [happ]
      congr 2
      exact Nat.zero_add _
    rw [length_cons]
    have hmul : (x.toNat + 1) * 256 ^ bytes.length ≤ 256 * 256 ^ bytes.length := Nat.mul_le_mul_right _ (by omega)
    rw [Nat.add_mul] at hmul
    omega

/-- A field of four bytes is the one spelling of its number. -/
theorem be32_ofBe (h : bytes.length = 4) : be32 (ofBe bytes) = bytes := by
  obtain ⟨a, b, c, d, rfl⟩ : ∃ a b c d, bytes = [a, b, c, d] := length_eq_four.mp h
  have ha := a.toNat_lt
  have hb := b.toNat_lt
  have hc := c.toNat_lt
  have hd := d.toNat_lt
  simp only [ofBe, be32, foldl_cons, foldl_nil, cons.injEq, and_true, ← UInt8.toNat_inj, UInt8.toNat_ofNat']
  omega

theorem be64_ofBe (h : bytes.length = 8) : be64 (ofBe bytes) = bytes := by
  have hhigh : (bytes.take 4).length = 4 := by rw [length_take, h]; rfl
  have hlow : (bytes.drop 4).length = 4 := by rw [length_drop, h]
  have hlt : ofBe (bytes.drop 4) < 2 ^ 32 := by
    have hlt := ofBe_lt (bytes.drop 4)
    rw [hlow] at hlt
    exact hlt
  have heq : ofBe bytes = ofBe (bytes.take 4) * 2 ^ 32 + ofBe (bytes.drop 4) := by
    have happ := ofBe_append (bytes.take 4) (bytes.drop 4)
    rw [take_append_drop, hlow] at happ
    exact happ
  have hdiv : ofBe bytes / 2 ^ 32 = ofBe (bytes.take 4) := by omega
  have hmod : be32 (ofBe bytes) = be32 (ofBe (bytes.drop 4)) := by
    simp only [be32, cons.injEq, and_true, ← UInt8.toNat_inj, UInt8.toNat_ofNat']
    omega
  rw [be64, hdiv, hmod, be32_ofBe hhigh, be32_ofBe hlow, take_append_drop]

theorem take_eq_ok {n : ℕ} {a r : Bytes} : take n rest = .ok (a, r) ↔ rest = a ++ r ∧ a.length = n := by
  constructor
  · intro h
    rw [take] at h
    split at h
    · cases h
    · cases h
      refine ⟨(take_append_drop n rest).symm, ?_⟩
      rw [length_take]
      omega
  · rintro ⟨rfl, hlen⟩
    exact take_append r hlen

theorem takeId_eq_ok {r : Bytes} : takeId rest = .ok (id, r) ↔ rest = id.val ++ r := by
  constructor
  · intro h
    rw [takeId] at h
    split at h
    · cases h
    · cases h
      exact (take_append_drop 32 rest).symm
  · rintro rfl
    exact takeId_append id r

theorem takeLen_eq_ok {r : Bytes} {n : ℕ} : takeLen rest = .ok (n, r) ↔ rest = be32 n ++ r ∧ n < 2 ^ 32 := by
  constructor
  · intro h
    obtain ⟨⟨raw, r'⟩, hraw, heq⟩ := bind_eq_ok.mp h
    cases heq
    obtain ⟨rfl, hlen⟩ := take_eq_ok.mp hraw
    have hlt := ofBe_lt raw
    rw [hlen] at hlt
    exact ⟨by rw [be32_ofBe hlen], hlt⟩
  · rintro ⟨rfl, hn⟩
    exact takeLen_append r hn

/-- The number types of an entry's fields. -/
def IndexEntry.InRange (e : IndexEntry) : Prop := e.offset < 2 ^ 64 ∧ e.len < 2 ^ 32

theorem decodeEntries_eq_ok {count : ℕ} : decodeEntries count bytes = .ok (entries, rest) ↔
      bytes = entries.flatMap encodeEntry ++ rest ∧ entries.length = count ∧ ∀ e ∈ entries, e.InRange := by
  constructor
  · intro h
    induction count generalizing bytes entries with
    | zero =>
      cases h
      exact ⟨rfl, rfl, fun e he => nomatch he⟩
    | succ count ih =>
      obtain ⟨⟨id, rest₁⟩, hid, h⟩ := bind_eq_ok.mp h
      obtain ⟨⟨offset, rest₂⟩, hoffset, h⟩ := bind_eq_ok.mp h
      obtain ⟨⟨len, rest₃⟩, hlen, h⟩ := bind_eq_ok.mp h
      obtain ⟨⟨others, rest₄⟩, hothers, h⟩ := bind_eq_ok.mp h
      cases h
      obtain rfl := takeId_eq_ok.mp hid
      obtain ⟨rfl, height⟩ := take_eq_ok.mp hoffset
      obtain ⟨rfl, hfour⟩ := take_eq_ok.mp hlen
      obtain ⟨rfl, hcount, hrange⟩ := ih hothers
      have hoffsetLt := ofBe_lt offset
      have hlenLt := ofBe_lt len
      rw [height] at hoffsetLt
      rw [hfour] at hlenLt
      refine ⟨?_, congrArg (· + 1) hcount, forall_mem_cons.mpr ⟨⟨hoffsetLt, hlenLt⟩, hrange⟩⟩
      rw [flatMap_cons, encodeEntry, be64_ofBe height, be32_ofBe hfour]
      simp only [append_assoc]
  · rintro ⟨rfl, rfl, hrange⟩
    exact decodeEntries_encode entries rest hrange

/-- An index is accepted in the one spelling that the encoder gives it. -/
theorem decodeIndex_eq_ok {scopeId : Bytes32} : decodeIndex bytes = .ok (scopeId, entries) ↔
      encodeIndex scopeId entries = some bytes ∧ ∀ e ∈ entries, e.InRange := by
  constructor
  · intro h
    obtain ⟨⟨id, rest₁⟩, hid, hbody⟩ := bind_eq_ok.mp h
    obtain ⟨⟨count, rest₂⟩, hcount, hentries⟩ := bind_eq_ok.mp hbody
    obtain ⟨⟨others, rest₃⟩, hothers, hend⟩ := bind_eq_ok.mp hentries
    obtain rfl := takeId_eq_ok.mp hid
    obtain ⟨rfl, hlt⟩ := takeLen_eq_ok.mp hcount
    obtain ⟨rfl, rfl, hrange⟩ := decodeEntries_eq_ok.mp hothers
    by_cases hrest : rest₃ = []
    · subst hrest
      cases hend
      refine ⟨?_, hrange⟩
      rw [encodeIndex, pushLen, if_pos hlt, append_nil]
      simp only [bind_eq_bind, bind_some, pure, append_assoc]
    · simp [hrest, throw, throwThe, bind, Except.bind] at hend
  · rintro ⟨hindex, hrange⟩
    exact decodeIndex_encodeIndex hrange hindex

/-! ### What opens -/

/-- Every entry of the index lies in the body. -/
def OpenedPack.Inside (p : OpenedPack) : Prop := ∀ id v, p.index.get? id = some v → v.1 + v.2 ≤ p.plain.length

theorem empty_inside (size : ℕ) : ∀ id v, (Table.empty : Table Bytes32 (ℕ × ℕ)).get? id = some v → v.1 + v.2 ≤ size := by
  intro id v hv
  cases hv

theorem insertEntries_inside {size : ℕ} {map map' : Table Bytes32 (ℕ × ℕ)}
    (hmap : ∀ id v, map.get? id = some v → v.1 + v.2 ≤ size) (h : insertEntries size entries map = .ok map') :
    ∀ id v, map'.get? id = some v → v.1 + v.2 ≤ size := by
  induction entries generalizing map with
  | nil =>
    cases h
    exact hmap
  | cons e entries ih =>
    rw [insertEntries] at h
    split at h
    · cases h
    next hsize =>
      refine ih (fun id v hv => ?_) h
      rw [get?_put] at hv
      split at hv
      · cases hv
        exact Nat.not_lt.mp hsize
      · exact hmap id v hv

theorem openPack_inside {c : Crypto} {unwrapKey : Bytes → Except String Bytes32}
    {p : OpenedPack} (h : openPack c bytes id unwrapKey = .ok p) : p.Inside := by
  simp only [openPack] at h
  split at h
  · cases h
  obtain ⟨⟨version, rest₁⟩, -, h₁⟩ := bind_eq_ok.mp h
  split at h₁
  · cases h₁
  obtain ⟨⟨wrappedLen, rest₂⟩, -, h₂⟩ := bind_eq_ok.mp h₁
  obtain ⟨⟨wrapped, rest₃⟩, -, h₃⟩ := bind_eq_ok.mp h₂
  obtain ⟨packKey, -, h₄⟩ := bind_eq_ok.mp h₃
  obtain ⟨⟨indexLen, rest₄⟩, -, h₅⟩ := bind_eq_ok.mp h₄
  obtain ⟨⟨sealedIndex, rest₅⟩, -, h₆⟩ := bind_eq_ok.mp h₅
  obtain ⟨index, -, h₇⟩ := bind_eq_ok.mp h₆
  obtain ⟨⟨scopeId, entries⟩, -, h₈⟩ := bind_eq_ok.mp h₇
  obtain ⟨plain, -, h₉⟩ := bind_eq_ok.mp h₈
  obtain ⟨map, hmap, hp⟩ := bind_eq_ok.mp h₉
  cases hp
  exact insertEntries_inside (empty_inside _) hmap

theorem OpenedPack.Inside.chunk {p : OpenedPack} (h : p.Inside) {v : ℕ × ℕ} (hv : p.index.get? id = some v) :
    (p.chunk id).isSome = true := by
  obtain ⟨offset, len⟩ := v
  simp only [OpenedPack.chunk, hv, if_pos (h id _ hv), isSome_some]

/-! ### What is put in -/

namespace PackBuilder

/-- `add` of each chunk in turn. -/
def addAll (b : PackBuilder) : List (Bytes32 × Bytes) → Option PackBuilder
  | [] => some b
  | chunk :: rest => (b.add chunk.1 chunk.2).bind fun r => r.1.addAll rest

/-- The pack that the builder's pack opens to. -/
def opened (b : PackBuilder) : OpenedPack := ⟨b.scopeId, b.plain, indexOf b.entries⟩

theorem indexOf_snoc (entries : List IndexEntry) (e : IndexEntry) :
    indexOf (entries ++ [e]) = (indexOf entries).put e.id (e.offset, e.len) := by
  rw [indexOf, foldl_append]
  rfl

theorem indexOf_inside (hsub : ∀ e ∈ entries, e ∈ b.entries) :
    ∀ id v, (indexOf entries).get? id = some v → v.1 + v.2 ≤ b.plain.length :=
  insertEntries_inside (empty_inside _) (insertEntries_eq Table.empty fun e he => (b.fits e (hsub e he)).1)

/-- A chunk comes to its id, and all others stay. -/
theorem chunk_add {b' : PackBuilder} {id' : Bytes32} {chunk : Bytes} {e : IndexEntry}
    (h : b.add id chunk = some (b', e)) : b'.opened.chunk id' = if id' = id then some chunk else b.opened.chunk id' := by
  obtain ⟨rfl, -, hplain, hentries⟩ := add_eq_some h
  simp only [opened, OpenedPack.chunk, hentries, indexOf_snoc, get?_put, hplain, length_append]
  by_cases heq : id' = id
  · simp only [if_pos heq, Nat.le_refl, if_true, drop_left, take_length]
  simp only [if_neg heq]
  cases hget : (indexOf b.entries).get? id' with
  | none => rfl
  | some v =>
    obtain ⟨offset, len⟩ := v
    have hfit : offset + len ≤ b.plain.length := indexOf_inside (fun e he => he) id' _ hget
    simp only [if_pos (Nat.le_add_right_of_le hfit)]
    rw [drop_append_of_le_length (by omega), take_append_of_le_length (by rw [length_drop]; omega)]
    exact (if_pos hfit).symm

/-- The last add of an id counts. -/
theorem chunk_addAll {b' : PackBuilder} {adds : List (Bytes32 × Bytes)} (h : b.addAll adds = some b') (id : Bytes32) :
    b'.opened.chunk id = (adds.reverse.lookup id).or (b.opened.chunk id) := by
  induction adds generalizing b with
  | nil =>
    cases h
    rfl
  | cons a rest ih =>
    obtain ⟨⟨b₁, e⟩, hadd, hrest⟩ := bind_eq_some_iff.mp h
    rw [ih hrest, reverse_cons, lookup_append, Option.or_assoc, chunk_add hadd]
    congr 1
    obtain ⟨id', chunk⟩ := a
    rw [lookup_cons]
    by_cases heq : id = id'
    · rw [if_pos heq, heq, beq_self_eq_true]
      rfl
    · rw [if_neg heq, beq_eq_false_iff_ne.mpr heq]
      rfl

/-- Chunks under 4 GiB are added. -/
theorem addAll_some {adds : List (Bytes32 × Bytes)} (hchunks : ∀ a ∈ adds, a.2.length < 2 ^ 32)
    (htotal : b.plain.length + (adds.map fun a => a.2.length).sum < 2 ^ 63) :
    ∃ b', b.addAll adds = some b' ∧ b'.scopeId = b.scopeId ∧ b'.entries.length = b.entries.length + adds.length := by
  induction adds generalizing b with
  | nil => exact ⟨b, rfl, rfl, rfl⟩
  | cons a rest ih =>
    have hlen : a.2.length < 2 ^ 32 := hchunks a mem_cons_self
    rw [map_cons, sum_cons] at htotal
    obtain ⟨⟨b₁, e⟩, hadd⟩ : ∃ r, b.add a.1 a.2 = some r := by
      rw [add, dif_pos ⟨hlen, by omega⟩]
      exact ⟨_, rfl⟩
    obtain ⟨-, hscope, hplain, hentries⟩ := add_eq_some hadd
    have hrest : b₁.plain.length + (rest.map fun a => a.2.length).sum < 2 ^ 63 := by
      rw [hplain, length_append]
      omega
    obtain ⟨b', hb', hscope', hentries'⟩ := ih (fun a' ha' => hchunks a' (mem_cons_of_mem _ ha')) hrest
    refine ⟨b', ?_, hscope'.trans hscope, ?_⟩
    · rw [addAll, hadd]
      exact hb'
    · rw [hentries', hentries, length_append, length_singleton, length_cons]
      omega

end PackBuilder

theorem length_flatMap_encodeEntry (entries : List IndexEntry) : (entries.flatMap encodeEntry).length = 44 * entries.length := by
  induction entries with
  | nil => rfl
  | cons e entries ih =>
    have hid : e.id.val.length = 32 := e.id.property
    rw [flatMap_cons, length_append, encodeEntry]
    simp only [length_append, length_be64, length_be32, length_cons]
    omega

/-- A pack whose fields are under 4 GiB is sealed. -/
theorem PackBuilder.finish_some {c : Crypto} {packKey : Bytes32} {indexNonce : Fixed nonceLen}
    {wrap : Bytes32 → Bytes} (bodyNonce : Fixed nonceLen) (hwrap : (wrap packKey).length < 2 ^ 32) (hcount : b.entries.length < 2 ^ 32)
    (hsealed : ∀ index : Bytes, index.length = 36 + 44 * b.entries.length →
      (c.encrypt packKey indexNonce packIndexAad index).length < 2 ^ 32) :
    ∃ pack, b.finish c packKey indexNonce bodyNonce wrap = some pack := by
  have hlen : (b.scopeId.val ++ be32 b.entries.length ++ b.entries.flatMap encodeEntry).length
      = 36 + 44 * b.entries.length := by
    have hid : b.scopeId.val.length = 32 := b.scopeId.property
    simp only [length_append, hid, length_be32, length_flatMap_encodeEntry]
  have hindex : encodeIndex b.scopeId b.entries
      = some (b.scopeId.val ++ be32 b.entries.length ++ b.entries.flatMap encodeEntry) := by
    rw [encodeIndex, pushLen, if_pos hcount]
    rfl
  simp only [finish, hindex, pushLen, bind_eq_bind, bind_some, if_pos hwrap, if_pos (hsealed _ hlen)]
  exact ⟨_, rfl⟩

/-! ### Both directions -/

/-- A pack key in the open. -/
def toyUnwrap (wrapped : Bytes) : Except String Bytes32 :=
  match toFixed 32 wrapped with
  | some key => .ok key
  | none => .error "This backup key copy is damaged."

end LibreServ.Cloud
