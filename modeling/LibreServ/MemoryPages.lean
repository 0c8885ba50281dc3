import LibreServ.MemoryStore

/-! Listings by pages are exact: following the cursors of `list_record_page_versioned` and of
`list_record_page_prefix_versioned` gives every name once, and a page that follows a change is refused. The second one
runs over the first one's pages, so both come from one argument about the cursors of an ordered list. -/

namespace LibreServ.Records

open List MemoryStore
open Files (Text)

variable {c : Scan} {fuel : Nat} {p : RecordPage} {changes : List Change} {s' : MemoryStore}

namespace MemoryStore

variable {s : MemoryStore} {kind name : Text} {after : Option Text} {limit : Nat}

/-! ### The names of a kind -/

/-- The names of a kind, in the map's order. -/
def recordNames (s : MemoryStore) (kind : Text) : List Text :=
  (s.keys.filter fun k => (ofLex k).1 = kind).map fun k => (ofLex k).2

theorem keys_sorted (s : MemoryStore) : s.keys.Pairwise (· < ·) := by
  have hsorted : s.keys.Pairwise (· ≤ ·) := pairwise_insertionSort _ _
  have hnodup : s.keys.Nodup := by
    rw [keys, (perm_insertionSort _ _).nodup_iff]
    exact s.records.nodup.map toLex.injective
  exact (hsorted.and hnodup).imp fun h => lt_of_le_of_ne h.1 h.2

theorem recordNames_sorted (s : MemoryStore) (kind : Text) : (s.recordNames kind).Pairwise (· < ·) := by
  rw [recordNames, pairwise_map]
  refine (s.keys_sorted.sublist filter_sublist).imp_of_mem fun {a b} ha hb hlt => ?_
  have hkind := of_decide_eq_true (mem_filter.mp ha).2
  have hkind' := of_decide_eq_true (mem_filter.mp hb).2
  obtain hless | ⟨-, hname⟩ := Prod.Lex.lt_iff.mp hlt
  · rw [hkind, hkind'] at hless
    exact absurd hless (lt_irrefl kind)
  · exact hname

theorem mem_recordNames : name ∈ s.recordNames kind ↔ ∃ bytes, s.records.get? (kind, name) = some bytes := by
  rw [recordNames, mem_map, ← Table.mem_keys]
  constructor
  · rintro ⟨k, hk, rfl⟩
    obtain ⟨hmem, hkind⟩ := mem_filter.mp hk
    rw [keys, mem_insertionSort, mem_map] at hmem
    obtain ⟨key, hkey, rfl⟩ := hmem
    have hkind : key.1 = kind := of_decide_eq_true hkind
    rw [← hkind]
    exact hkey
  · intro hkey
    refine ⟨toLex (kind, name), mem_filter.mpr ⟨?_, decide_eq_true rfl⟩, rfl⟩
    rw [keys, mem_insertionSort]
    exact mem_map_of_mem hkey

theorem validToken_of_mem (h : name ∈ s.recordNames kind) : validToken name 128 = true := by
  obtain ⟨bytes, hget⟩ := mem_recordNames.mp h
  exact (s.valid _ bytes hget).2

theorem nil_lt_of_valid (h : validToken name 128 = true) : [] < name := by
  cases name with
  | nil => simp [validToken] at h
  | cons c rest => exact nil_lt_cons c rest

theorem length_recordNames_le (s : MemoryStore) (kind : Text) : (s.recordNames kind).length ≤ s.records.rows.length := by
  calc (s.recordNames kind).length = (s.keys.filter fun k => (ofLex k).1 = kind).length := length_map _
    _ ≤ s.keys.length := length_filter_le _ _
    _ = s.records.rows.length := by rw [keys, length_insertionSort, length_map, Table.keys, length_map]

/-! ### One page of a kind -/

/-- The page of an ordered list of names. -/
def pageOfNames (names : List Text) (version : Nat) (after : Option Text) (limit : Nat) : RecordPage :=
  ⟨(Keyset.page names limit (after.getD [])).keys, names.length, (Keyset.page names limit (after.getD [])).next, version⟩

/-- One name too many is read, and left out. -/
theorem cut_take (names : List Text) (limit : Nat) : Keyset.cut limit (names.take (limit + 1)) =
    ⟨if limit < (names.take (limit + 1)).length then (names.take (limit + 1)).dropLast else names.take (limit + 1),
      if limit < (names.take (limit + 1)).length then
        (if limit < (names.take (limit + 1)).length then (names.take (limit + 1)).dropLast
          else names.take (limit + 1)).getLast? else none⟩ := by
  unfold Keyset.cut
  split
  · next hlt =>
      have hlen : (names.take (limit + 1)).length = limit + 1 := by
        rw [length_take] at hlt ⊢
        omega
      rw [dropLast_eq_take, hlen]
      rfl
  · rfl

theorem listRecordPage_ok (h : validateRecordPage kind after limit = true) :
    s.listRecordPage kind after limit = .ok (pageOfNames (s.recordNames kind) s.inventoryVersion after limit) := by
  have hfound : ((s.keys.filter fun k => toLex (kind, after.getD []) ≤ k).filter fun k =>
      (ofLex k).1 = kind && after.all fun cursor => cursor < (ofLex k).2).map (fun k => (ofLex k).2) =
      Keyset.rest (s.recordNames kind) (after.getD []) := by
    rw [Keyset.rest, recordNames, filter_map, filter_filter, filter_filter]
    congr 1
    apply filter_congr
    intro k hk
    rw [Bool.eq_iff_iff]
    simp only [Bool.and_eq_true, decide_eq_true_eq, Function.comp_apply]
    constructor
    · rintro ⟨⟨hkind, hlater⟩, -⟩
      refine ⟨?_, hkind⟩
      cases after with
      | some cursor => exact of_decide_eq_true hlater
      | none =>
        have hmem : (ofLex k).2 ∈ s.recordNames kind :=
          mem_map_of_mem (mem_filter.mpr ⟨hk, decide_eq_true hkind⟩)
        exact nil_lt_of_valid (validToken_of_mem hmem)
    · rintro ⟨hlater, hkind⟩
      refine ⟨⟨hkind, ?_⟩, ?_⟩
      · cases after with
        | some cursor => exact decide_eq_true hlater
        | none => rfl
      · exact Prod.Lex.le_iff.mpr (.inr ⟨hkind.symm, hlater.le⟩)
  have hnames : (((s.keys.filter fun k => toLex (kind, after.getD []) ≤ k).filter fun k =>
      (ofLex k).1 = kind && after.all fun cursor => cursor < (ofLex k).2).take (limit + 1)).map (fun k => (ofLex k).2) =
      (Keyset.rest (s.recordNames kind) (after.getD [])).take (limit + 1) := by
    rw [map_take, hfound]
  have htotal : (s.keys.filter fun k => (ofLex k).1 = kind).length = (s.recordNames kind).length :=
    (length_map _).symm
  rw [listRecordPage, if_neg (by simp [h])]
  simp only [hnames, htotal]
  rw [pageOfNames, Keyset.page, cut_take]

/-! ### Changes -/

theorem putRecord_ok {bytes : List UInt8} (h : s.putRecord kind name bytes = .ok s') :
    s'.inventoryVersion = s.bumped := by
  unfold putRecord at h
  split at h
  · split at h
    · cases h
    · dsimp only at h
      split at h
      · cases h
        rfl
      · cases h
  · cases h

theorem apply_cases (s : MemoryStore) (c : Change) : (s.Effective c ∧ (s.apply c).inventoryVersion = s.bumped) ∨
      (¬ s.Effective c ∧ (s.apply c).records = s.records ∧ (s.apply c).inventoryVersion = s.inventoryVersion) := by
  cases c with
  | putRecord kind name bytes =>
    cases hput : s.putRecord kind name bytes with
    | ok s' =>
      refine .inl ⟨⟨s', hput⟩, ?_⟩
      rw [apply, hput]
      exact putRecord_ok hput
    | error e =>
      refine .inr ⟨fun heffective => ?_, ?_⟩
      · obtain ⟨s', hok⟩ := heffective
        rw [hput] at hok
        cases hok
      · rw [apply, hput]
        exact ⟨rfl, rfl⟩
  | deleteRecord kind name =>
    cases hget : s.records.get? (kind, name) with
    | some bytes =>
      refine .inl ⟨?_, ?_⟩
      · show (s.records.get? (kind, name)).isSome = true
        rw [hget]
        rfl
      · rw [apply, deleteRecord, if_pos (s.valid _ bytes hget), if_pos (by rw [hget]; rfl)]
        rfl
    | none =>
      refine .inr ⟨fun heffective => ?_, ?_⟩
      · have heffective : (s.records.get? (kind, name)).isSome = true := heffective
        rw [hget] at heffective
        cases heffective
      · rw [apply, deleteRecord]
        split
        · rw [if_neg (by rw [hget]; simp)]
          exact ⟨rfl, rfl⟩
        · exact ⟨rfl, rfl⟩
  | setPacks packs => exact .inr ⟨id, rfl, rfl⟩

theorem bumped_ge (s : MemoryStore) : s.inventoryVersion ≤ s.bumped := Nat.le_min.mpr ⟨Nat.le_succ _, s.bounded⟩

theorem bumped_gt (h : s.bumped < maxVersion) : s.inventoryVersion < s.bumped := by
  unfold bumped at h ⊢
  omega

theorem apply_le (s : MemoryStore) (c : Change) : s.inventoryVersion ≤ (s.apply c).inventoryVersion := by
  rcases s.apply_cases c with ⟨-, hversion⟩ | ⟨-, -, hversion⟩
  · rw [hversion]
    exact s.bumped_ge
  · exact hversion.ge

theorem applyAll_le (s : MemoryStore) (changes : List Change) :
    s.inventoryVersion ≤ (s.applyAll changes).inventoryVersion := by
  induction changes generalizing s with
  | nil => exact Nat.le_refl _
  | cons c rest ih => exact (s.apply_le c).trans (ih (s.apply c))

theorem applyAll_append (s : MemoryStore) (before rest : List Change) :
    s.applyAll (before ++ rest) = (s.applyAll before).applyAll rest := foldl_append

/-- While the version has room, it tells of every change of the records. -/
theorem applyAll_same (hlt : s.inventoryVersion < maxVersion)
    (h : (s.applyAll changes).inventoryVersion = s.inventoryVersion) : (s.applyAll changes).records = s.records := by
  induction changes generalizing s with
  | nil => rfl
  | cons c rest ih =>
    have hle := s.apply_le c
    have hle' := (s.apply c).applyAll_le rest
    have h : ((s.apply c).applyAll rest).inventoryVersion = s.inventoryVersion := h
    have hsame : (s.apply c).inventoryVersion = s.inventoryVersion := by omega
    rcases s.apply_cases c with ⟨-, hversion⟩ | ⟨-, hrecords, -⟩
    · have hbumped : s.bumped = s.inventoryVersion := hversion.symm.trans hsame
      have hgt := bumped_gt (s := s) (by omega)
      omega
    · have hrest : ((s.apply c).applyAll rest).records = (s.apply c).records :=
        ih (hsame ▸ hlt) (h.trans hsame.symm)
      exact hrest.trans hrecords

theorem applyAll_lt (h : s.Changed changes)
    (hlt : (s.applyAll changes).inventoryVersion < maxVersion) :
    s.inventoryVersion < (s.applyAll changes).inventoryVersion := by
  obtain ⟨before, c, rest, rfl, heffective⟩ := h
  have hend : s.applyAll (before ++ c :: rest) = ((s.applyAll before).apply c).applyAll rest := applyAll_append _ _ _
  have hbefore := s.applyAll_le before
  have hrest := ((s.applyAll before).apply c).applyAll_le rest
  rw [hend] at hlt ⊢
  rcases (s.applyAll before).apply_cases c with ⟨-, hversion⟩ | ⟨hnot, -⟩
  · have hgt := bumped_gt (s := s.applyAll before) (by omega)
    omega
  · exact absurd heffective hnot

/-- The names of a kind, with a prefix if there is one. -/
def listed (s : MemoryStore) (kind : Text) (start : Option Text) : List Text :=
  (s.recordNames kind).filter fun name => start.all fun p => p.isPrefixOf name

theorem listed_none (s : MemoryStore) (kind : Text) : s.listed kind none = s.recordNames kind :=
  filter_eq_self.mpr fun _ _ => rfl

theorem listed_sorted (s : MemoryStore) (kind : Text) (start : Option Text) : (s.listed kind start).Pairwise (· < ·) :=
  (s.recordNames_sorted kind).sublist filter_sublist

theorem mem_listed {start : Option Text} :
    name ∈ s.listed kind start ↔ (∃ bytes, s.records.get? (kind, name) = some bytes) ∧ ∀ p ∈ start, p <+: name := by
  rw [listed, mem_filter, mem_recordNames, Option.all_eq_true]
  simp only [List.isPrefixOf_iff_prefix, Option.mem_def]

theorem listed_congr (h : s'.records = s.records) (kind : Text) (start : Option Text) :
    s'.listed kind start = s.listed kind start := by
  rw [listed, listed, recordNames, recordNames, keys, keys, h]

theorem length_listed_le (s : MemoryStore) (kind : Text) (start : Option Text) :
    (s.listed kind start).length ≤ s.records.rows.length :=
  (length_filter_le _ _).trans (s.length_recordNames_le kind)

/-- The page a store has. -/
def page (s : MemoryStore) (kind : Text) (start after : Option Text) (limit : Nat) : RecordPage :=
  pageOfNames (s.listed kind start) s.inventoryVersion after limit

end MemoryStore

/-! ### Reading while others write -/

namespace World

variable {s : MemoryStore} {w : World}

theorem skip_skip (w : World) (m n : Nat) : (w.skip m).skip n = w.skip (m + n) := by
  simp only [skip, take_add, flatten_append, applyAll_append, drop_drop]

/-- From here on the version tells of every change of the records. -/
structure Tells (s : MemoryStore) (w : World) : Prop where
  same : ∀ n, (w.skip n).store.inventoryVersion = s.inventoryVersion → (w.skip n).store.records = s.records
  clear : ∀ m n, (w.skip m).store.inventoryVersion = (w.skip n).store.inventoryVersion →
    (w.skip m).store.records = (w.skip n).store.records

theorem Tells.skip (h : Tells s w) (n : Nat) : Tells s (w.skip n) where
  same m := by
    rw [skip_skip]
    exact h.same (n + m)
  clear m m' := by
    rw [skip_skip, skip_skip]
    exact h.clear (n + m) (n + m')

theorem Tells.at (h : Tells s w) (n : Nat) : Tells (w.skip n).store w := ⟨fun m hm => h.clear m n hm, h.clear⟩

/-- Nobody else is there. -/
theorem skip_alone (s : MemoryStore) (n : Nat) : World.skip ⟨s, []⟩ n = ⟨s, []⟩ := by
  rw [World.skip, take_nil, drop_nil]
  rfl

theorem tells_alone (s : MemoryStore) : Tells s ⟨s, []⟩ :=
  ⟨fun n _ => by rw [skip_alone], fun m n _ => by rw [skip_alone, skip_alone]⟩

/-- The version has not come to its end. -/
def Unsaturated (w : World) : Prop := ∀ n, (w.skip n).store.inventoryVersion < maxVersion

theorem skip_le (w : World) {m n : Nat} (h : m ≤ n) :
    (w.skip m).store.inventoryVersion ≤ (w.skip n).store.inventoryVersion := by
  obtain ⟨d, rfl⟩ := Nat.exists_eq_add_of_le h
  rw [← skip_skip]
  exact applyAll_le _ _

theorem Unsaturated.tells (h : w.Unsaturated) (n : Nat) : Tells (w.skip n).store w := by
  have hle : ∀ m n, m ≤ n → (w.skip m).store.inventoryVersion = (w.skip n).store.inventoryVersion →
      (w.skip m).store.records = (w.skip n).store.records := by
    intro m n hmn hversion
    obtain ⟨d, rfl⟩ := Nat.exists_eq_add_of_le hmn
    rw [← skip_skip] at hversion ⊢
    exact (applyAll_same (h m) hversion.symm).symm
  have hclear : ∀ m n, (w.skip m).store.inventoryVersion = (w.skip n).store.inventoryVersion →
      (w.skip m).store.records = (w.skip n).store.records := by
    intro m n hversion
    obtain hmn | hnm := Nat.le_total m n
    · exact hle m n hmn hversion
    · exact (hle n m hnm hversion.symm).symm
  exact ⟨fun m hm => hclear m n hm, hclear⟩

end World

open World

/-- What a listing gives in this world: something good while the version stays, or an error, where it does not stay. -/
def Reads {α : Type} (s : MemoryStore) (w : World) (x : Listing α) (good : α → Prop) : Prop :=
  (∃ n a, x w = .ok a (w.skip n) ∧ (w.skip n).store.inventoryVersion = s.inventoryVersion ∧ good a) ∨
    ∃ e w' n, x w = .error (.error e) w' ∧ (w.skip n).store.inventoryVersion ≠ s.inventoryVersion

variable {read : Listing RecordPage}

section Reading

variable {α β : Type} {s : MemoryStore} {w w' : World} {x : Listing α} {f : α → Listing β} {a : α} {good : α → Prop}

theorem bind_of_ok (h : x w = .ok a w') : (x >>= f) w = f a w' := by
  show EStateM.bind x f w = f a w'
  rw [EStateM.bind, h]

theorem bind_of_error {e : Stop} (h : x w = .error e w') : (x >>= f) w = .error e w' := by
  show EStateM.bind x f w = .error e w'
  rw [EStateM.bind, h]

theorem Reads.pure (h : w.store.inventoryVersion = s.inventoryVersion) (ha : good a) :
    Reads s w (pure a : Listing α) good := .inl ⟨0, a, rfl, h, ha⟩

theorem Reads.mono {good' : α → Prop} (h : Reads s w x good) (himp : ∀ a, good a → good' a) : Reads s w x good' :=
  h.imp (fun ⟨n, a, hrun, hversion, ha⟩ => ⟨n, a, hrun, hversion, himp a ha⟩) id

theorem Reads.bind {good' : β → Prop} (hx : Reads s w x good)
    (hf : ∀ n a, good a → (w.skip n).store.inventoryVersion = s.inventoryVersion → Reads s (w.skip n) (f a) good') :
    Reads s w (x >>= f) good' := by
  obtain ⟨n, a, hrun, hversion, ha⟩ | ⟨e, w', n, hrun, hversion⟩ := hx
  · rcases hf n a ha hversion with ⟨m, b, hrun', hversion', hb⟩ | ⟨e, w', m, hrun', hversion'⟩
    · rw [skip_skip] at hrun' hversion'
      exact .inl ⟨n + m, b, (bind_of_ok hrun).trans hrun', hversion', hb⟩
    · rw [skip_skip] at hversion'
      exact .inr ⟨e, w', n + m, (bind_of_ok hrun).trans hrun', hversion'⟩
  · exact .inr ⟨e, w', n, bind_of_error hrun, hversion⟩

/-- A page is asked for after one of the same version, or it is the first one. -/
def Asked (s : MemoryStore) (w : World) (total : Nat) (after : Option Text) (version expectedTotal : Option Nat) : Prop :=
  (version = some s.inventoryVersion ∧ expectedTotal = some total) ∨
    (version = none ∧ expectedTotal = none ∧ after = none ∧ w.next.store.inventoryVersion = s.inventoryVersion)

variable {kind : Text} {start after : Option Text} {limit : Nat} {version expectedTotal : Option Nat}

theorem page_congr (hversion : s'.inventoryVersion = s.inventoryVersion) (hrecords : s'.records = s.records) :
    s'.page kind start after limit = s.page kind start after limit := by
  rw [page, page, listed_congr hrecords, hversion]

theorem versioned_reads (ht : w.Tells s)
    (hread : Reads w.next.store w read (· = w.next.store.page kind start after limit))
    (hask : Asked s w (s.listed kind start).length after version expectedTotal) :
    Reads s w (versioned read after version expectedTotal) (· = s.page kind start after limit) := by
  have hfits : ¬ (version.isSome ≠ expectedTotal.isSome ∨ after.isSome ∧ version = none) := by
    obtain ⟨rfl, rfl⟩ | ⟨rfl, rfl, rfl, -⟩ := hask <;> simp
  rw [versioned, if_neg hfits]
  by_cases hsame : w.next.store.inventoryVersion = s.inventoryVersion
  · have hpage : w.next.store.page kind start after limit = s.page kind start after limit :=
      page_congr hsame (ht.same 1 hsame)
    have hread' : Reads s w read (· = s.page kind start after limit) := by
      rw [Reads, hsame, hpage] at hread
      exact hread
    refine hread'.bind fun n page hpage hversion => ?_
    have hstays : ¬ ((∃ v ∈ version, v ≠ page.version) ∨ (∃ t ∈ expectedTotal, t ≠ page.total) ∨
        version.isSome ≠ expectedTotal.isSome) := by
      rw [hpage]
      obtain ⟨rfl, rfl⟩ | ⟨rfl, rfl, -, -⟩ := hask <;> simp [MemoryStore.page, MemoryStore.pageOfNames]
    rw [if_neg hstays]
    exact .pure hversion hpage
  · -- The store has changed since the last page, and the page's version tells.
    obtain ⟨rfl, rfl⟩ | ⟨-, -, -, hfirst⟩ := hask
    · obtain ⟨n, page, hrun, -, rfl⟩ | ⟨e, w', n, hrun, -⟩ := hread
      · refine .inr ⟨.unavailable changedMessage, w.skip n, 1, (bind_of_ok hrun).trans ?_, hsame⟩
        rw [if_pos (.inl ⟨_, rfl, fun heq => hsame heq.symm⟩)]
        rfl
      · exact .inr ⟨e, w', 1, bind_of_error hrun, hsame⟩
    · exact absurd hfirst hsame

theorem call_reads (h : validateRecordPage kind after limit = true) (w : World) :
    Reads w.next.store w (call fun s => s.listRecordPage kind after limit) (· = w.next.store.page kind none after limit) := by
  refine .inl ⟨1, _, ?_, rfl, rfl⟩
  rw [call, listRecordPage_ok h, page, listed_none]

end Reading

/-! ### The scan for a prefix -/

section Scanning

variable {s : MemoryStore} {w : World} {kind start : Text} {after : Option Text} {limit : Nat}

/-- The names with the prefix, behind the cursor. -/
def hits (start : Text) (after : Option Text) (names : List Text) : List Text :=
  (names.filter fun name => start.isPrefixOf name).filter fun name => after.all fun cursor => cursor < name

/-- What the counters of a scan say of the names seen in between. -/
structure Sums (start : Text) (after : Option Text) (limit : Nat) (c c' : Scan) (seen : List Text) : Prop where
  total : c'.total = c.total + (seen.filter fun name => start.isPrefixOf name).length
  afterTotal : c'.afterTotal = c.afterTotal + (hits start after seen).length
  names : c'.names = (c.names ++ hits start after seen).take (limit + 1)

theorem Sums.length_le {c' : Scan} {seen : List Text} (h : Sums start after limit c c' seen) :
    c'.names.length ≤ limit + 1 := by
  rw [h.names, length_take]
  exact Nat.min_le_left _ _

theorem hits_append (xs ys : List Text) : hits start after (xs ++ ys) = hits start after xs ++ hits start after ys := by
  simp only [hits, filter_append]

theorem take_take_append (n : Nat) (xs ys : List Text) : (xs.take n ++ ys).take n = (xs ++ ys).take n := by
  obtain hle | hlt := Nat.le_total xs.length n
  · rw [take_of_length_le hle]
  · rw [take_append_of_le_length (by rw [length_take]; omega), take_take, Nat.min_self, take_append_of_le_length hlt]

theorem Sums.trans {c' c'' : Scan} {xs ys : List Text} (h : Sums start after limit c c' xs)
    (h' : Sums start after limit c' c'' ys) : Sums start after limit c c'' (xs ++ ys) where
  total := by
    rw [h'.total, h.total, filter_append, length_append, Nat.add_assoc]
  afterTotal := by
    rw [h'.afterTotal, h.afterTotal, hits_append, length_append, Nat.add_assoc]
  names := by
    rw [h'.names, h.names, take_take_append, hits_append, append_assoc]

theorem see_sums (h : c.names.length ≤ limit + 1) (name : Text) :
    Sums start after limit c (c.see start after limit name) [name] := by
  have hfull : c.names.take (limit + 1) = c.names := take_of_length_le h
  unfold Scan.see
  by_cases hstart : start.isPrefixOf name = true
  · by_cases hafter : (after.all fun cursor => cursor < name) = true
    · rw [if_pos hstart, if_pos hafter]
      have hhit : hits start after [name] = [name] := by simp [hits, hstart, hafter]
      refine ⟨by simp [hstart], by rw [hhit]; rfl, ?_⟩
      rw [hhit]
      split
      · next hle => rw [take_of_length_le (by rw [length_append, length_singleton]; omega)]
      · next hgt => rw [take_append_of_le_length (by omega), hfull]
    · rw [if_pos hstart, if_neg hafter]
      have hmiss : hits start after [name] = [] := by simp [hits, hafter]
      refine ⟨by simp [hstart], by rw [hmiss]; rfl, ?_⟩
      rw [hmiss, append_nil, hfull]
  · rw [if_neg hstart]
    have hmiss : hits start after [name] = [] := by simp [hits, hstart]
    refine ⟨by simp [hstart], by rw [hmiss]; rfl, ?_⟩
    rw [hmiss, append_nil, hfull]

theorem see_version (c : Scan) (name : Text) : (c.see start after limit name).version = c.version ∧
    (c.see start after limit name).expectedTotal = c.expectedTotal := by
  unfold Scan.see
  split
  · split <;> exact ⟨rfl, rfl⟩
  · exact ⟨rfl, rfl⟩

theorem foldl_see (c : Scan) (h : c.names.length ≤ limit + 1) (names : List Text) :
    Sums start after limit c (names.foldl (Scan.see start after limit) c) names := by
  induction names generalizing c with
  | nil =>
    have hfull : c.names.take (limit + 1) = c.names := take_of_length_le h
    exact ⟨rfl, rfl, by simp [hits, hfull]⟩
  | cons name rest ih =>
    have hone : Sums start after limit c (c.see start after limit name) [name] := see_sums h name
    exact hone.trans (ih _ hone.length_le)

theorem foldl_see_version (c : Scan) (names : List Text) :
    (names.foldl (Scan.see start after limit) c).version = c.version ∧
      (names.foldl (Scan.see start after limit) c).expectedTotal = c.expectedTotal := by
  induction names generalizing c with
  | nil => exact ⟨rfl, rfl⟩
  | cons name rest ih =>
    obtain ⟨hversion, htotal⟩ := ih (c.see start after limit name)
    exact ⟨hversion.trans (see_version c name).1, htotal.trans (see_version c name).2⟩

theorem validateRecordPage_kind (hkind : validToken kind 128 = true) {cursor : Option Text}
    (hcursor : ∀ a ∈ cursor, validToken a 128 = true) : validateRecordPage kind cursor maxStorageRecordPageSize = true := by
  have hall : (cursor.all fun a => validToken a 128) = true := by
    rw [Option.all_eq_true]
    exact hcursor
  simp [validateRecordPage, hkind, hall, maxStorageRecordPageSize]

/-- The scan after one more page. -/
def Scan.seePage (c : Scan) (start : Text) (after : Option Text) (limit : Nat) (page : RecordPage) : Scan :=
  page.names.foldl (Scan.see start after limit) { c with expectedTotal := some page.total, version := some page.version }

/-- One turn of the loop. -/
theorem scan_step {good : Scan → Prop} (hkind : validToken kind 128 = true) (ht : w.Tells s)
    (hask : Asked s w (s.recordNames kind).length c.scanAfter c.version c.expectedTotal)
    (hvalid : ∀ a ∈ c.scanAfter, validToken a 128 = true)
    (hnext : ∀ n, (w.skip n).store.inventoryVersion = s.inventoryVersion → Reads s (w.skip n)
      (match (s.page kind none c.scanAfter maxStorageRecordPageSize).nextAfter with
        | none => pure (c.seePage start after limit (s.page kind none c.scanAfter maxStorageRecordPageSize))
        | some last => scanPages kind start after limit fuel
            { c.seePage start after limit (s.page kind none c.scanAfter maxStorageRecordPageSize) with
              scanAfter := some last }) good) :
    Reads s w (scanPages kind start after limit (fuel + 1) c) good := by
  have hpage := validateRecordPage_kind hkind hvalid
  rw [← listed_none] at hask
  refine (versioned_reads ht (call_reads hpage w) hask).bind fun n page hread hversion => ?_
  subst hread
  have hnames : ∀ name ∈ s.listed kind none, validToken name 128 = true := by
    intro name hname
    rw [listed_none] at hname
    exact validToken_of_mem hname
  have htaken : validatePageResponse kind c.scanAfter maxStorageRecordPageSize
      (s.page kind none c.scanAfter maxStorageRecordPageSize) = true :=
    validatePageResponse_page _ _ hpage hnames (s.listed_sorted kind none)
  have htotal : ¬ ∃ t ∈ c.expectedTotal, t ≠ (s.page kind none c.scanAfter maxStorageRecordPageSize).total := by
    rintro ⟨t, hmem, hne⟩
    obtain ⟨-, heq⟩ | ⟨-, heq, -⟩ := hask
    · rw [heq] at hmem
      exact hne (Option.some.inj hmem).symm
    · rw [heq] at hmem
      cases hmem
  rw [if_neg (by rw [htaken]; exact Bool.true_eq_false_eq_False), if_neg htotal]
  exact hnext n hversion

/-- From a cursor on, the scan sees the names behind it. -/
theorem scan_reads (hkind : validToken kind 128 = true) (cursor : Text) (c : Scan) (fuel : Nat) (w : World) (ht : w.Tells s)
    (hask : Asked s w (s.recordNames kind).length c.scanAfter c.version c.expectedTotal)
    (hcursor : c.scanAfter.getD [] = cursor) (hvalid : ∀ a ∈ c.scanAfter, validToken a 128 = true)
    (hlen : c.names.length ≤ limit + 1) (hfuel : (Keyset.rest (s.recordNames kind) cursor).length < fuel) :
    Reads s w (scanPages kind start after limit fuel c) fun c' =>
      Sums start after limit c c' (Keyset.rest (s.recordNames kind) cursor) ∧ c'.version = some s.inventoryVersion := by
  have hsize : 0 < maxStorageRecordPageSize := by decide
  have hsorted := s.recordNames_sorted kind
  induction cursor using Keyset.cursor_induction hsorted hsize generalizing c fuel w with
  | last cursor hle =>
    obtain ⟨fuel, rfl⟩ : ∃ n, fuel = n + 1 := ⟨fuel - 1, by omega⟩
    have hpage : s.page kind none c.scanAfter maxStorageRecordPageSize =
        ⟨Keyset.rest (s.recordNames kind) cursor, (s.recordNames kind).length, none, s.inventoryVersion⟩ := by
      rw [page, pageOfNames, listed_none, hcursor, Keyset.page_of_le hle]
    refine scan_step hkind ht hask hvalid fun n hversion => ?_
    rw [hpage]
    let c₁ : Scan := { c with expectedTotal := some (s.recordNames kind).length, version := some s.inventoryVersion }
    have hsums : Sums start after limit c₁ _ _ := foldl_see c₁ hlen (Keyset.rest (s.recordNames kind) cursor)
    exact .pure hversion ⟨⟨hsums.total, hsums.afterTotal, hsums.names⟩, (foldl_see_version _ _).1⟩
  | full cursor a hlt hlast hmem hdrop ih =>
    obtain ⟨fuel, rfl⟩ : ∃ n, fuel = n + 1 := ⟨fuel - 1, by omega⟩
    have hpage : s.page kind none c.scanAfter maxStorageRecordPageSize =
        ⟨(Keyset.rest (s.recordNames kind) cursor).take maxStorageRecordPageSize, (s.recordNames kind).length, some a,
          s.inventoryVersion⟩ := by
      rw [page, pageOfNames, listed_none, hcursor, Keyset.page_of_lt hlt, hlast]
    refine scan_step hkind ht hask hvalid fun n hversion => ?_
    rw [hpage]
    let c₁ : Scan := { c with expectedTotal := some (s.recordNames kind).length, version := some s.inventoryVersion }
    have hsums : Sums start after limit c₁ _ _ := foldl_see c₁ hlen ((Keyset.rest (s.recordNames kind) cursor).take maxStorageRecordPageSize)
    have ha : validToken a 128 = true := validToken_of_mem (Keyset.mem_rest.mp hmem).1
    have hless : (Keyset.rest (s.recordNames kind) a).length < fuel := by
      rw [hdrop, length_drop]
      omega
    have hrest := ih { foldl (Scan.see start after limit)
        { c with expectedTotal := some (s.recordNames kind).length, version := some s.inventoryVersion }
        ((Keyset.rest (s.recordNames kind) cursor).take maxStorageRecordPageSize) with scanAfter := some a }
      fuel (w.skip n) (ht.skip n) (.inl (foldl_see_version _ _)) rfl (fun b hb => ?_) hsums.length_le hless
    refine hrest.mono fun c' hc' => ?_
    · obtain ⟨hmore, hversion'⟩ := hc'
      have hmore' : Sums start after limit
          (((Keyset.rest (s.recordNames kind) cursor).take maxStorageRecordPageSize).foldl (Scan.see start after limit)
            { c with expectedTotal := some (s.recordNames kind).length, version := some s.inventoryVersion }) c'
          (Keyset.rest (s.recordNames kind) a) := ⟨hmore.total, hmore.afterTotal, hmore.names⟩
      have hall := hsums.trans hmore'
      rw [hdrop, take_append_drop] at hall
      exact ⟨⟨hall.total, hall.afterTotal, hall.names⟩, hversion'⟩
    · obtain rfl := Option.some.inj hb
      exact ha

/-- A scan that found these names has the page of a keyset. -/
theorem scanned_page (hc : Sums start after limit ⟨none, none, 0, [], 0, none⟩ c (s.recordNames kind))
    (hversion : c.version = some s.inventoryVersion) :
    (⟨if limit < c.afterTotal then c.names.dropLast else c.names, c.total,
      if limit < c.afterTotal then (if limit < c.afterTotal then c.names.dropLast else c.names).getLast? else none,
      c.version.getD 0⟩ : RecordPage) = s.page kind (some start) after limit := by
  have hlisted : s.listed kind (some start) = (s.recordNames kind).filter fun name => start.isPrefixOf name := rfl
  have hrest : hits start after (s.recordNames kind) = Keyset.rest (s.listed kind (some start)) (after.getD []) := by
    apply filter_congr
    intro name hname
    cases after with
    | some cursor => simp
    | none =>
      have hlt := nil_lt_of_valid (validToken_of_mem (mem_filter.mp hname).1)
      simp [hlt]
  have hnames : c.names = (Keyset.rest (s.listed kind (some start)) (after.getD [])).take (limit + 1) := by
    rw [hc.names, nil_append, hrest]
  have hmore : limit < c.afterTotal ↔
      limit < ((Keyset.rest (s.listed kind (some start)) (after.getD [])).take (limit + 1)).length := by
    rw [hc.afterTotal, hrest, length_take, Nat.zero_add]
    omega
  have htotal : c.total = (s.listed kind (some start)).length := by
    rw [hc.total, hlisted, Nat.zero_add]
  rw [page, pageOfNames, Keyset.page, cut_take]
  simp only [hmore, hnames, htotal, hversion, Option.getD_some]

theorem prefix_reads (h : validateRecordPagePrefix kind start after limit = true)
    (ht : w.Tells w.next.store) (hfuel : (w.next.store.recordNames kind).length < fuel) :
    Reads w.next.store w (listRecordPagePrefix fuel kind start after limit)
      (· = w.next.store.page kind (some start) after limit) := by
  have hkind : validToken kind 128 = true := by
    simp only [validateRecordPagePrefix, validateRecordPage, Bool.and_eq_true] at h
    exact h.1.1.1.1.1.1
  have hall : Keyset.rest (w.next.store.recordNames kind) [] = w.next.store.recordNames kind := by
    rw [Keyset.rest, filter_eq_self]
    intro name hname
    have hlt := nil_lt_of_valid (validToken_of_mem hname)
    simp [hlt]
  rw [listRecordPagePrefix, if_neg (by simp [h])]
  have hscan : Reads w.next.store w (scanPages kind start after limit fuel ⟨none, none, 0, [], 0, none⟩) fun c =>
      Sums start after limit ⟨none, none, 0, [], 0, none⟩ c (Keyset.rest (w.next.store.recordNames kind) []) ∧
        c.version = some w.next.store.inventoryVersion :=
    scan_reads hkind [] _ fuel w ht (.inr ⟨rfl, rfl, rfl, rfl⟩) rfl (fun _ ha => (by cases ha)) (Nat.zero_le _)
      (by rw [hall]; exact hfuel)
  rw [hall] at hscan
  exact hscan.bind fun n c hc hversion => .pure hversion (scanned_page hc.1 hc.2)

end Scanning

/-! ### All pages -/

section Following

variable {s : MemoryStore} {w w' : World} {kind : Text} {start after : Option Text} {limit scanFuel : Nat}
  {version expectedTotal : Option Nat}

theorem listPage_reads (ht : w.Tells s) (h : validRequest kind start after limit = true)
    (hask : Asked s w (s.listed kind start).length after version expectedTotal)
    (hfuel : w.next.store.records.rows.length < scanFuel) :
    Reads s w (listPage scanFuel kind start after limit version expectedTotal) (· = s.page kind start after limit) := by
  cases start with
  | none => exact versioned_reads ht (call_reads h w) hask
  | some p =>
    have hlength := w.next.store.length_recordNames_le kind
    exact versioned_reads ht (prefix_reads h (ht.at 1) (by omega)) hask

/-- A cursor from a page is a good one. -/
theorem validRequest_after (h : validRequest kind start none limit = true) (hafter : ∀ a ∈ after, a ∈ s.listed kind start) :
    validRequest kind start after limit = true := by
  have hvalid : (after.all fun cursor => validToken cursor 128) = true := by
    rw [Option.all_eq_true]
    intro a ha
    exact validToken_of_mem (mem_filter.mp (hafter a ha)).1
  cases start with
  | none =>
    simp only [validRequest, validateRecordPage, Option.all_none, Bool.and_true] at h ⊢
    rw [hvalid, Bool.and_true]
    exact h
  | some p =>
    have hstart : (after.all fun cursor => p.isPrefixOf cursor) = true := by
      rw [Option.all_eq_true]
      intro a ha
      exact (mem_filter.mp (hafter a ha)).2
    simp only [validRequest, validateRecordPagePrefix, validateRecordPage, Option.all_none, Bool.and_true] at h ⊢
    rw [hvalid, hstart, Bool.and_true, Bool.and_true]
    exact h

/-- The pages from a cursor on are good ones and hold the names behind it. -/
structure Exact (s : MemoryStore) (kind : Text) (start : Option Text) (limit : Nat) (cursor : Text)
    (pages : List (Option Text × RecordPage)) : Prop where
  names : pages.flatMap (fun p => p.2.names) = Keyset.rest (s.listed kind start) cursor
  valid : ∀ p ∈ pages, validatePageResponse kind p.1 limit p.2 = true
  total : ∀ p ∈ pages, p.2.total = (s.listed kind start).length

theorem validToken_of_listed {name : Text} (h : name ∈ s.listed kind start) : validToken name 128 = true :=
  validToken_of_mem (mem_filter.mp h).1

section

variable (h : validRequest kind start after limit = true)

include h

theorem validateRecordPage_of_request :
    validateRecordPage kind after limit = true := by
  cases start with
  | none => exact h
  | some p =>
    simp only [validRequest, validateRecordPagePrefix, Bool.and_eq_true] at h
    exact h.1.1.1

theorem page_taken : validatePageResponse kind after limit (s.page kind start after limit) = true :=
  validatePageResponse_page _ _ (validateRecordPage_of_request h) (fun _ hn => validToken_of_listed hn)
    (s.listed_sorted kind start)

end

theorem listAll_reads (h : validRequest kind start none limit = true) (cursor : Text) (fuel : Nat) (w : World)
    (after : Option Text) (last : Option RecordPage) (ht : w.Tells s)
    (hask : Asked s w (s.listed kind start).length after (last.map (·.version)) (last.map (·.total)))
    (hcursor : after.getD [] = cursor) (hafter : ∀ a ∈ after, a ∈ s.listed kind start)
    (hscan : ∀ n, (w.skip n).store.records.rows.length < scanFuel)
    (hfuel : (Keyset.rest (s.listed kind start) cursor).length < fuel) :
    Reads s w (listAll scanFuel kind start limit fuel after last) (Exact s kind start limit cursor) := by
  have hlimit : 0 < limit := by
    have hpage := validateRecordPage_of_request h
    simp only [validateRecordPage, Bool.and_eq_true, decide_eq_true_eq] at hpage
    omega
  have hsorted := s.listed_sorted kind start
  induction cursor using Keyset.cursor_induction hsorted hlimit generalizing fuel w after last with
  | last cursor hle =>
    obtain ⟨fuel, rfl⟩ : ∃ n, fuel = n + 1 := ⟨fuel - 1, by omega⟩
    have hrequest := validRequest_after h hafter
    have hpage : s.page kind start after limit =
        ⟨Keyset.rest (s.listed kind start) cursor, (s.listed kind start).length, none, s.inventoryVersion⟩ := by
      rw [page, pageOfNames, hcursor, Keyset.page_of_le hle]
    have htaken := page_taken (s := s) hrequest
    refine (listPage_reads ht hrequest hask (hscan 1)).bind fun n page hread hversion => ?_
    subst hread
    rw [hpage] at htaken ⊢
    refine .pure hversion ⟨by simp, fun p hp => ?_, fun p hp => ?_⟩
    · obtain rfl := mem_singleton.mp hp
      exact htaken
    · obtain rfl := mem_singleton.mp hp
      rfl
  | full cursor a hlt hlast hmem hdrop ih =>
    obtain ⟨fuel, rfl⟩ : ∃ n, fuel = n + 1 := ⟨fuel - 1, by omega⟩
    have hrequest := validRequest_after h hafter
    have hpage : s.page kind start after limit = ⟨(Keyset.rest (s.listed kind start) cursor).take limit,
        (s.listed kind start).length, some a, s.inventoryVersion⟩ := by
      rw [page, pageOfNames, hcursor, Keyset.page_of_lt hlt, hlast]
    have htaken := page_taken (s := s) hrequest
    have hless : (Keyset.rest (s.listed kind start) a).length < fuel := by
      rw [hdrop, length_drop]
      omega
    refine (listPage_reads ht hrequest hask (hscan 1)).bind fun n page hread hversion => ?_
    subst hread
    rw [hpage] at htaken ⊢
    refine (ih fuel (w.skip n) (some a) (some _) (ht.skip n) (.inl ⟨rfl, rfl⟩) rfl (fun b hb => ?_)
      (fun m => ?_) hless).bind fun m pages hpages hversion' => .pure hversion' ⟨?_, fun p hp => ?_, fun p hp => ?_⟩
    · obtain rfl := Option.some.inj hb
      exact (Keyset.mem_rest.mp hmem).1
    · rw [skip_skip]
      exact hscan (n + m)
    · rw [flatMap_cons, hpages.names, hdrop, take_append_drop]
    · rcases mem_cons.mp hp with rfl | hp
      · exact htaken
      · exact hpages.valid p hp
    · rcases mem_cons.mp hp with rfl | hp
      · rfl
      · exact hpages.total p hp

/-- Nobody else is there: all names, and the pages as they should be. -/
theorem listAll_alone (s : MemoryStore) (h : validRequest kind start none limit = true)
    (hfuel : s.records.rows.length < fuel) : ∃ pages, listAll fuel kind start limit fuel none none ⟨s, []⟩ = .ok pages ⟨s, []⟩ ∧
      Exact s kind start limit [] pages := by
  have hrest : (Keyset.rest (s.listed kind start) []).length < fuel := by
    have hle : (Keyset.rest (s.listed kind start) []).length ≤ (s.listed kind start).length := length_filter_le _ _
    have hle' := s.length_listed_le kind start
    omega
  have hreads : Reads s ⟨s, []⟩ (listAll fuel kind start limit fuel none none) (Exact s kind start limit []) :=
    listAll_reads h [] fuel ⟨s, []⟩ none none (tells_alone s) (.inr ⟨rfl, rfl, rfl, by rw [World.next, skip_alone]⟩) rfl
      (fun _ ha => (nomatch ha)) (fun n => by rw [skip_alone]; exact hfuel) hrest
  obtain ⟨n, pages, hrun, -, hexact⟩ | ⟨e, w', n, -, hne⟩ := hreads
  · rw [skip_alone] at hrun
    exact ⟨pages, hrun, hexact⟩
  · rw [skip_alone] at hne
    exact absurd rfl hne

/-! ### A page after a change -/

theorem bind_run {α β : Type} {x : Listing α} {f : α → Listing β} {b : β} (h : (x >>= f) w = .ok b w') :
    ∃ a w₁, x w = .ok a w₁ ∧ f a w₁ = .ok b w' := by
  cases hrun : x w with
  | ok a w₁ =>
    rw [bind_of_ok hrun] at h
    exact ⟨a, w₁, rfl, h⟩
  | error e w₁ =>
    rw [bind_of_error hrun] at h
    cases h

/-- A page that is taken is the one that was read. -/
theorem versioned_ok (h : versioned read after version expectedTotal w = .ok p w') :
    read w = .ok p w' := by
  unfold versioned at h
  split at h
  · cases h
  · obtain ⟨page, w₁, hread, h⟩ := bind_run h
    split at h
    · cases h
    · cases h
      exact hread

theorem call_version (h : call (fun s => s.listRecordPage kind after limit) w = .ok p w') :
    p.version = w'.store.inventoryVersion := by
  simp only [call] at h
  cases hlist : w.next.store.listRecordPage kind after limit with
  | error e =>
    rw [hlist] at h
    cases h
  | ok page =>
    rw [hlist] at h
    cases h
    unfold listRecordPage at hlist
    split at hlist
    · cases hlist
    · cases hlist
      rfl

theorem scanPages_version {begins : Text} {c' : Scan}
    (h : scanPages kind begins after limit fuel c w = .ok c' w') : c'.version = some w'.store.inventoryVersion := by
  induction fuel generalizing c w with
  | zero => cases h
  | succ fuel ih =>
    obtain ⟨page, w₁, hread, h⟩ := bind_run h
    have hversion := call_version (versioned_ok hread)
    split at h
    · cases h
    split at h
    · cases h
    cases hnext : page.nextAfter with
    | none =>
      rw [hnext] at h
      cases h
      rw [(foldl_see_version _ _).1, hversion]
    | some next =>
      rw [hnext] at h
      exact ih h

theorem listPage_version (h : listPage scanFuel kind start after limit version expectedTotal w = .ok p w') :
    p.version = w'.store.inventoryVersion := by
  cases start with
  | none => exact call_version (versioned_ok h)
  | some begins =>
    have hread := versioned_ok h
    unfold listRecordPagePrefix at hread
    split at hread
    · cases hread
    · obtain ⟨c, w₁, hscan, hread⟩ := bind_run hread
      cases hread
      rw [scanPages_version hscan, Option.getD_some]

/-- A page that was read at another version is refused. -/
theorem versioned_refuses {v t : Nat}
    (h : (∃ page w₁, read w = .ok page w₁ ∧ v ≠ page.version) ∨ ∃ e w₁, read w = .error (.error e) w₁) :
    ∃ e w₁, versioned read after (some v) (some t) w = .error (.error e) w₁ := by
  have hfits : ¬ ((some v).isSome ≠ (some t).isSome ∨ after.isSome ∧ some v = none) := by simp
  rw [versioned, if_neg hfits]
  obtain ⟨page, w₁, hrun, hne⟩ | ⟨e, w₁, hrun⟩ := h
  · refine ⟨.unavailable changedMessage, w₁, (bind_of_ok hrun).trans ?_⟩
    rw [if_pos (.inl ⟨v, rfl, hne⟩)]
    rfl
  · exact ⟨e, w₁, bind_of_error hrun⟩

/-- Once a record has changed, no page continues a listing. -/
theorem listPage_changed (h : listPage scanFuel kind start after limit version expectedTotal w = .ok p w')
    (hchanged : w'.store.Changed changes) {batches : List (List Change)}
    (hroom : Unsaturated ⟨w'.store.applyAll changes, batches⟩) (after' : Option Text)
    (hfuel : (World.next ⟨w'.store.applyAll changes, batches⟩).store.records.rows.length < fuel) :
    ∃ e w'', listPage fuel kind start after' limit (some p.version) (some p.total) ⟨w'.store.applyAll changes, batches⟩ =
      .error (.error e) w'' := by
  have hlater : p.version ≠ (World.next ⟨w'.store.applyAll changes, batches⟩).store.inventoryVersion := by
    have hlt := applyAll_lt hchanged (hroom 0)
    have hle := skip_le ⟨w'.store.applyAll changes, batches⟩ (Nat.zero_le 1)
    have hle : (w'.store.applyAll changes).inventoryVersion ≤
        (World.next ⟨w'.store.applyAll changes, batches⟩).store.inventoryVersion := hle
    rw [listPage_version h]
    omega
  cases start with
  | none =>
    refine versioned_refuses ?_
    by_cases hvalid : validateRecordPage kind after' limit = true
    · obtain ⟨n, page, hrun, -, rfl⟩ | ⟨e, w₁, n, hrun, -⟩ := call_reads hvalid ⟨w'.store.applyAll changes, batches⟩
      · exact .inl ⟨_, _, hrun, hlater⟩
      · exact .inr ⟨e, w₁, hrun⟩
    · refine .inr ⟨.rejected nameMsg, World.next ⟨w'.store.applyAll changes, batches⟩, ?_⟩
      rw [call, listRecordPage, if_pos (by simpa using hvalid)]
  | some begins =>
    refine versioned_refuses ?_
    by_cases hvalid : validateRecordPagePrefix kind begins after' limit = true
    · have hlength := (World.next ⟨w'.store.applyAll changes, batches⟩).store.length_recordNames_le kind
      have hscan : ((World.next ⟨w'.store.applyAll changes, batches⟩).store.recordNames kind).length < fuel := by omega
      obtain ⟨n, page, hrun, -, rfl⟩ | ⟨e, w₁, n, hrun, -⟩ := prefix_reads hvalid (hroom.tells 1) hscan
      · exact .inl ⟨_, _, hrun, hlater⟩
      · exact .inr ⟨e, w₁, hrun⟩
    · refine .inr ⟨.rejected nameMsg, ⟨w'.store.applyAll changes, batches⟩, ?_⟩
      rw [listRecordPagePrefix, if_pos (by simpa using hvalid)]
      rfl

end Following

/-- Following the cursors of a kind, or of a prefix that is accepted, goes through all its names in order and once, in
pages that are taken and tell their number; and while the version has room, a record that is put or deleted after a page
makes the next one fail. -/
theorem pages_exact (kind : Text) (start : Option Text) (limit : Nat) (h : validRequest kind start none limit = true) :
    (∀ s : MemoryStore, ∃ names : List Text, names.Pairwise (· < ·) ∧
      (∀ name, name ∈ names ↔ (∃ bytes, s.records.get? (kind, name) = some bytes) ∧ ∀ p ∈ start, p <+: name) ∧
      ∀ fuel, s.records.rows.length < fuel → ∃ pages, listAll fuel kind start limit fuel none none ⟨s, []⟩ = .ok pages ⟨s, []⟩ ∧
        pages.flatMap (fun p => p.2.names) = names ∧
        ∀ p ∈ pages, validatePageResponse kind p.1 limit p.2 = true ∧ p.2.total = names.length) ∧
    ∀ scanFuel after version expectedTotal w p w',
      listPage scanFuel kind start after limit version expectedTotal w = .ok p w' →
      ∀ changes, w'.store.Changed changes → ∀ batches, Unsaturated ⟨w'.store.applyAll changes, batches⟩ →
      ∀ fuel after', (World.next ⟨w'.store.applyAll changes, batches⟩).store.records.rows.length < fuel →
        ∃ e w'', listPage fuel kind start after' limit (some p.version) (some p.total)
          ⟨w'.store.applyAll changes, batches⟩ = .error (.error e) w'' := by
  refine ⟨fun s => ⟨s.listed kind start, s.listed_sorted kind start, fun name => mem_listed, fun fuel hfuel => ?_⟩,
    fun _ _ _ _ _ _ _ hpage _ hchanged _ hroom _ after' hfuel => listPage_changed hpage hchanged hroom after' hfuel⟩
  obtain ⟨pages, hrun, hexact⟩ := listAll_alone s h hfuel
  have hall : Keyset.rest (s.listed kind start) [] = s.listed kind start := by
    rw [Keyset.rest, filter_eq_self]
    intro name hname
    have hlt := nil_lt_of_valid (validToken_of_listed hname)
    simp [hlt]
  exact ⟨pages, hrun, hexact.names.trans hall, fun p hp => ⟨hexact.valid p hp, hexact.total p hp⟩⟩

/-- A store with these names under a prefix. -/
def threeDots : MemoryStore := MemoryStore.new.applyAll
  [.putRecord ['k'] ['p', '.', '3'] [0], .putRecord ['k'] ['p', '.', '1'] [], .putRecord ['k'] ['p', '.', '2'] [],
    .putRecord ['k'] ['q'] []]

theorem threeDots_listed :
    (∃ pages, listAll 5 ['k'] (some ['p', '.']) 2 5 none none ⟨threeDots, []⟩ = .ok pages ⟨threeDots, []⟩ ∧
      ['p', '.', '3'] ∈ pages.flatMap fun p => p.2.names) ∧
    ∃ p, listPage 5 ['k'] (some ['p', '.']) none 2 none none ⟨threeDots, []⟩ = .ok p ⟨threeDots, []⟩ ∧
      ∃ e w', listPage 5 ['k'] (some ['p', '.']) p.nextAfter 2 (some p.version) (some p.total)
        ⟨threeDots.applyAll [.deleteRecord ['k'] ['q']], []⟩ = .error (.error e) w' := by
  obtain ⟨hlisted, hchanged⟩ := pages_exact ['k'] (some ['p', '.']) 2 (by decide)
  constructor
  · obtain ⟨names, -, hnames, hpages⟩ := hlisted threeDots
    obtain ⟨pages, hrun, hall, -⟩ := hpages 5 (by decide +kernel)
    refine ⟨pages, hrun, ?_⟩
    rw [hall, hnames]
    exact ⟨⟨[0], by decide +kernel⟩, by decide⟩
  · obtain ⟨n, p, hrun, -, -⟩ | ⟨e, w', n, -, hne⟩ : Reads threeDots ⟨threeDots, []⟩
        (listPage 5 ['k'] (some ['p', '.']) none 2 none none) (· = threeDots.page ['k'] (some ['p', '.']) none 2) :=
      listPage_reads (tells_alone threeDots) (by decide) (.inr ⟨rfl, rfl, rfl, rfl⟩) (by decide +kernel)
    · rw [skip_alone] at hrun
      have hthere : (threeDots.records.get? (['k'], ['q'])).isSome = true := by decide +kernel
      have hdeleted : threeDots.Changed [.deleteRecord ['k'] ['q']] := ⟨[], _, [], rfl, hthere⟩
      have hroom : Unsaturated ⟨threeDots.applyAll [.deleteRecord ['k'] ['q']], []⟩ := fun n => by
        rw [skip_alone]
        decide +kernel
      exact ⟨p, hrun, hchanged 5 none none none _ p _ hrun _ hdeleted [] hroom 5 p.nextAfter (by decide +kernel)⟩
    · rw [skip_alone] at hne
      exact absurd rfl hne

/-! ### The version at its end -/

/-- Two records of one kind, after so many changes. -/
def two (v : Nat) (h : v ≤ maxVersion) : MemoryStore where
  quotaBytes := 0
  packs := Table.empty
  records := (Table.empty.put (['k'], ['b']) []).put (['k'], ['a']) []
  inventoryVersion := v
  valid key bytes hget := by
    rw [Table.get?_put] at hget
    split at hget
    · next heq => exact heq ▸ by decide
    · rw [Table.get?_put] at hget
      split at hget
      · next heq => exact heq ▸ by decide
      · cases hget
  bounded := h

theorem two_apply (v : Nat) (h : v ≤ maxVersion) :
    (two v h).apply (.putRecord ['k'] ['a'] []) = two (min (v + 1) maxVersion) (Nat.min_le_right _ _) := rfl

theorem two_applyAll (n v : Nat) (h : v ≤ maxVersion) :
    (two v h).applyAll (replicate n (.putRecord ['k'] ['a'] [])) = two (min (v + n) maxVersion) (Nat.min_le_right _ _) := by
  induction n generalizing v with
  | zero =>
    have hv : v = min (v + 0) maxVersion := by omega
    show two v h = _
    congr 1
  | succ n ih =>
    have hv : min (min (v + 1) maxVersion + n) maxVersion = min (v + (n + 1)) maxVersion := by omega
    show ((two v h).apply (.putRecord ['k'] ['a'] [])).applyAll (replicate n (.putRecord ['k'] ['a'] [])) = _
    rw [two_apply, ih]
    congr 1

/-- After 2^64 - 1 changes the version stays: a record is put after a page, and the next page comes. -/
theorem saturated_change_unseen : ∃ changes p w', validRequest ['k'] none none 1 = true ∧
    listPage 3 ['k'] none none 1 none none ⟨MemoryStore.new.applyAll changes, []⟩ = .ok p w' ∧ p.nextAfter.isSome ∧
    w'.store.Changed [.putRecord ['k'] ['a'] []] ∧ ∃ p' w'', listPage 3 ['k'] none p.nextAfter 1 (some p.version)
      (some p.total) ⟨w'.store.applyAll [.putRecord ['k'] ['a'] []], []⟩ = .ok p' w'' := by
  have hfull : MemoryStore.new.applyAll ([.putRecord ['k'] ['b'] [], .putRecord ['k'] ['a'] []] ++
      replicate maxVersion (.putRecord ['k'] ['a'] [])) = two maxVersion (Nat.le_refl _) := by
    rw [applyAll_append]
    have hstart : MemoryStore.new.applyAll [.putRecord ['k'] ['b'] [], .putRecord ['k'] ['a'] []] = two 2 (by decide) := rfl
    rw [hstart, two_applyAll]
    congr 1
  refine ⟨[.putRecord ['k'] ['b'] [], .putRecord ['k'] ['a'] []] ++ replicate maxVersion (.putRecord ['k'] ['a'] []),
    ⟨[['a']], 2, some ['a'], maxVersion⟩, ⟨two maxVersion (Nat.le_refl _), []⟩, by decide, ?_, rfl, ?_, ?_⟩
  · rw [hfull]
    rfl
  · exact ⟨[], _, [], rfl, _, rfl⟩
  · exact ⟨⟨[['b']], 2, none, maxVersion⟩, ⟨two maxVersion (Nat.le_refl _), []⟩, rfl⟩

end LibreServ.Records
