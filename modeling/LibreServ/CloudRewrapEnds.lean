import LibreServ.CloudRewrap

/-! The key move ends. Steps that succeed, each at a time not before the target key was made and with no
other writer between them, take away from two finite sets: the linked packs under an older version that
still hold chunks of the scope, and the snapshots that are below the target version or still link an older
pack. When both are used up the next step has nothing to do, and neither has any step after it. -/

namespace LibreServ.Cloud

open Sections List Table Prog Option Except

variable {pack : SealedPack} {snapshot : Snapshot} {b : PackBuilder} {row : PackRow} {old : Bytes32}

variable (c : Crypto) (j : Json)

/-! ### What is left to do -/

/-- The pack is under an older version than the target. -/
def olderPack (db : Db) (target : Target) (pack : Bytes32) : Bool :=
  (db.packs.get? pack).any fun row => row.createdAt < target.createdAt

/-- Older packs that a snapshot links and that still hold chunks of the scope. -/
def packsLeft (db : Db) (target : Target) (scope : Bytes) : Finset Bytes32 :=
  db.packs.keys.toFinset.filter fun pack => olderPack db target pack ∧ db.linked pack ∧
    db.chunks.any fun k place => k.1 = scope ∧ place.pack = pack

/-- Snapshots of the target's dedup line that are below its version or still link an older pack. -/
def snapshotsLeft (db : Db) (protection : String) (target : Target) : Finset Id :=
  db.snapshots.keys.toFinset.filter fun id => (db.snapshots.get? id).any fun s =>
    s.protectionId = protection ∧ sameDedupLine db protection s.keyVersion target.dedupKey ∧
      (s.keyVersion < target.version ∨ hasOldLink db id s target.createdAt)

/-- The measure of the move: packs first, then snapshots. -/
def workLeft (db : Db) (protection : String) : ℕ × ℕ :=
  match loadTarget db protection with
  | .ok (some target) =>
    ((packsLeft db target (scopeName (scopeIdOf c target.dedupKey))).card,
      (snapshotsLeft db protection target).card)
  | _ => (0, 0)

variable {c j} {db db' : Db} {protection : String} {target : Target} {scope : Bytes} {runId id : Id}

theorem olderPack_iff {pack : Bytes32} : olderPack db target pack = true ↔
      ∃ row, db.packs.get? pack = some row ∧ row.createdAt < target.createdAt := by
  simp [olderPack, Option.any_eq_true]

theorem mem_packsLeft {pack : Bytes32} :
    pack ∈ packsLeft db target scope ↔ olderPack db target pack = true ∧ (∃ id, (id, pack) ∈ db.links) ∧
      ∃ id place, db.chunks.get? (scope, id) = some place ∧ place.pack = pack := by
  simp only [packsLeft, Finset.mem_filter, List.mem_toFinset, Table.mem_keys, Db.linked_iff, any_iff, decide_eq_true_eq]
  constructor
  · rintro ⟨-, hold, hlink, ⟨scope', id⟩, place, hget, rfl, hpack⟩
    exact ⟨hold, hlink, id, place, hget, hpack⟩
  · rintro ⟨hold, hlink, id, place, hget, hpack⟩
    obtain ⟨row, hrow, -⟩ := olderPack_iff.mp hold
    exact ⟨⟨row, hrow⟩, hold, hlink, (scope, id), place, hget, rfl, hpack⟩

theorem hasOldLink_iff {s : Snapshot} : hasOldLink db id s target.createdAt = true ↔
      ∃ pack, (id, pack) ∈ db.links ∧ pack ≠ s.treePackId ∧ olderPack db target pack = true := by
  simp only [hasOldLink, any_iff, olderPack_iff, decide_eq_true_eq]
  constructor
  · rintro ⟨pack, row, hrow, hlink, htree, hold⟩
    exact ⟨pack, hlink, htree, row, hrow, hold⟩
  · rintro ⟨pack, hlink, htree, row, hrow, hold⟩
    exact ⟨pack, row, hrow, hlink, htree, hold⟩

theorem mem_snapshotsLeft : id ∈ snapshotsLeft db protection target ↔ ∃ s, db.snapshots.get? id = some s ∧
      s.protectionId = protection ∧ sameDedupLine db protection s.keyVersion target.dedupKey = true ∧
      (s.keyVersion < target.version ∨ hasOldLink db id s target.createdAt = true) := by
  simp only [snapshotsLeft, Finset.mem_filter, List.mem_toFinset, Table.mem_keys, Option.any_eq_true, decide_eq_true_eq]
  constructor
  · rintro ⟨-, h⟩
    exact h
  · intro h
    obtain ⟨s, hs, hrest⟩ := h
    exact ⟨⟨s, hs⟩, s, hs, hrest⟩

/-! ### What a commit may do to the index -/

/-- The tables that the move is decided by are the same. -/
structure SameIndex (db db' : Db) : Prop where
  packs : db'.packs = db.packs
  chunks : db'.chunks = db.chunks
  snapshots : db'.snapshots = db.snapshots
  links : db'.links = db.links
  backupKeys : db'.backupKeys = db.backupKeys
  protections : db'.protections = db.protections

theorem SameIndex.refl (db : Db) : SameIndex db db := ⟨rfl, rfl, rfl, rfl, rfl, rfl⟩

theorem SameIndex.trans {db'' : Db} (h : SameIndex db db') (h' : SameIndex db' db'') : SameIndex db db'' :=
  ⟨h'.packs.trans h.packs, h'.chunks.trans h.chunks, h'.snapshots.trans h.snapshots,
    h'.links.trans h.links, h'.backupKeys.trans h.backupKeys, h'.protections.trans h.protections⟩

theorem SameIndex.loadTarget (h : SameIndex db db') (protection : String) :
    loadTarget db' protection = Cloud.loadTarget db protection := by
  obtain ⟨h1, h2, h3, h4, h5, h6⟩ := h
  cases db
  cases db'
  subst h1 h2 h3 h4 h5 h6
  rfl

theorem SameIndex.nextWork (h : SameIndex db db') (protection : String) (target : Target) (scope : Bytes) :
    nextWork db' protection target scope = Cloud.nextWork db protection target scope := by
  obtain ⟨h1, h2, h3, h4, h5, h6⟩ := h
  cases db
  cases db'
  subst h1 h2 h3 h4 h5 h6
  rfl

theorem SameIndex.workLeft (h : SameIndex db db') (protection : String) :
    workLeft c db' protection = Cloud.workLeft c db protection := by
  obtain ⟨h1, h2, h3, h4, h5, h6⟩ := h
  cases db
  cases db'
  subst h1 h2 h3 h4 h5 h6
  rfl

/-- A commit brings no older pack, link or index row, and a snapshot it changes is under the target and
links no older pack but its tree. -/
structure Renews (target : Target) (db db' : Db) : Prop where
  protections : db'.protections = db.protections
  backupKeys : db'.backupKeys = db.backupKeys
  packs : ∀ p, olderPack db' target p = true → olderPack db target p = true
  links : ∀ l ∈ db'.links, olderPack db' target l.2 = true → l ∈ db.links
  chunks : ∀ k place, db'.chunks.get? k = some place → olderPack db' target place.pack = true →
    db.chunks.get? k = some place
  snapshots : ∀ id s, db'.snapshots.get? id = some s → db.snapshots.get? id = some s ∨
    (s.keyVersion = target.version ∧
      ∀ p, (id, p) ∈ db'.links → p ≠ s.treePackId → olderPack db' target p = false)

theorem Renews.loadTarget (h : Renews target db db') (protection : String) :
    loadTarget db' protection = Cloud.loadTarget db protection := by
  unfold Cloud.loadTarget Db.latestBackupKey Db.listBackupKeys
  rw [h.protections, h.backupKeys]

theorem Renews.packsLeft_subset (h : Renews target db db') :
    packsLeft db' target scope ⊆ packsLeft db target scope := by
  intro pack hpack
  obtain ⟨hold, ⟨id, hlink⟩, chunk, place, hget, rfl⟩ := mem_packsLeft.mp hpack
  exact mem_packsLeft.mpr ⟨h.packs _ hold, ⟨id, h.links _ hlink hold⟩, chunk, place, h.chunks _ _ hget hold, rfl⟩

/-- A snapshot under the target that links no older pack but its tree has nothing left. -/
theorem not_mem_snapshotsLeft {s : Snapshot} (hs : db.snapshots.get? id = some s)
    (hversion : s.keyVersion = target.version)
    (hnone : ∀ p, (id, p) ∈ db.links → p ≠ s.treePackId → olderPack db target p = false) :
    id ∉ snapshotsLeft db protection target := by
  intro hid
  obtain ⟨s', hs', -, -, hleft⟩ := mem_snapshotsLeft.mp hid
  obtain rfl := some.inj (hs.symm.trans hs')
  rcases hleft with hlt | hlink
  · omega
  · obtain ⟨pack, hmem, htree, hold⟩ := hasOldLink_iff.mp hlink
    rw [hnone pack hmem htree] at hold
    cases hold

theorem Renews.snapshotsLeft_subset (h : Renews target db db') :
    snapshotsLeft db' protection target ⊆ snapshotsLeft db protection target := by
  intro id hid
  obtain ⟨s, hs, hprot, hline, hleft⟩ := mem_snapshotsLeft.mp hid
  have hline' : sameDedupLine db protection s.keyVersion target.dedupKey = true := by
    rw [sameDedupLine, h.backupKeys] at hline
    exact hline
  rcases h.snapshots id s hs with hs' | ⟨hversion, hnone⟩
  · refine mem_snapshotsLeft.mpr ⟨s, hs', hprot, hline', hleft.imp_right fun hlink => ?_⟩
    obtain ⟨pack, hmem, htree, hold⟩ := hasOldLink_iff.mp hlink
    exact hasOldLink_iff.mpr ⟨pack, h.links _ hmem hold, htree, h.packs _ hold⟩
  · exact absurd hid (not_mem_snapshotsLeft hs hversion hnone)

theorem Renews.sameIndex {db'' : Db} (h : Renews target db db') (hs : SameIndex db' db'') :
    Renews target db db'' := by
  obtain ⟨h1, h2, h3, h4, h5, h6⟩ := hs
  cases db'
  cases db''
  subst h1 h2 h3 h4 h5 h6
  exact ⟨h.protections, h.backupKeys, h.packs, h.links, h.chunks, h.snapshots⟩

/-- The row of a new pack, at a time not before the target, brings nothing older. -/
theorem olderPack_insert {pack : Bytes32} (hnew : target.createdAt ≤ row.createdAt)
    (hpacks : ∀ p, db'.packs.get? p = if p = pack then some row else db.packs.get? p) {p : Bytes32}
    (hold : olderPack db' target p = true) : p ≠ pack ∧ olderPack db target p = true := by
  obtain ⟨row', hrow', hlt⟩ := olderPack_iff.mp hold
  rw [hpacks p] at hrow'
  by_cases hp : p = pack
  · rw [if_pos hp, some.injEq] at hrow'
    subst hrow'
    omega
  · rw [if_neg hp] at hrow'
    exact ⟨hp, olderPack_iff.mpr ⟨row', hrow', hlt⟩⟩

/-- An update of rows that keeps the times they were made keeps what is older. -/
theorem olderPack_map {f : Bytes32 → PackRow → PackRow} (hf : ∀ p row, (f p row).createdAt = row.createdAt)
    (hpacks : ∀ p, db'.packs.get? p = (db.packs.get? p).map (f p)) (p : Bytes32) :
    olderPack db' target p = olderPack db target p := by
  rw [olderPack, olderPack, hpacks p]
  cases db.packs.get? p with
  | none => rfl
  | some row => simp [hf p row]

/-! ### Runs of the parts of a step -/

section Runs

variable {s t : State}

theorem runs_insertPack {now : ℤ} {u : Unit}
    (h : (insertPack pack scope runId now).Runs s (.ok u) t) :
    s.db.packs.get? pack.id = none ∧ t.db = { s.db with packs := t.db.packs } ∧ ∀ p, t.db.packs.get? p =
        if p = pack.id then some ⟨scope, .pending, runId, pack.bytes.length, 0, now⟩
        else s.db.packs.get? p := by
  obtain ⟨db, hdb, rfl⟩ := runs_transact h
  exact Db.insertSizedPack_ok hdb

theorem finish_eq_some {packKey : Bytes32} {indexNonce bodyNonce : Fixed nonceLen}
    {wrap : Bytes32 → Bytes}
    (h : b.finish c packKey indexNonce bodyNonce wrap = some pack) :
    pack.entries = b.entries ∧ pack.id = c.packId pack.bytes := by
  simp only [PackBuilder.finish, Option.bind_eq_bind, bind_eq_some_iff, pure, some.injEq] at h
  obtain ⟨_, _, _, _, _, _, rfl⟩ := h
  exact ⟨rfl, rfl⟩

theorem runs_sealPack {keyBytes : Bytes32}
    (h : (sealPack c keyBytes b).Runs s (.ok pack) t) : pack.entries = b.entries ∧ t = s := by
  obtain ⟨sealed, u, hdraw, hpanic⟩ := runs_bind_ok.mp h
  obtain ⟨i, hsealed, rfl⟩ := runs_look.mp hdraw
  obtain ⟨rfl, rfl⟩ := runs_orPanic.mp hpanic
  exact ⟨(finish_eq_some (ok.inj hsealed).symm).1, rfl⟩

theorem rebuild_ids {dedupKey : Bytes32} {opened : OpenedPack} {ids : List Bytes32} {b' : PackBuilder}
    (h : rebuild c dedupKey opened ids b = .ok b') :
    b'.entries.map IndexEntry.id = b.entries.map IndexEntry.id ++ ids := by
  induction ids generalizing b with
  | nil =>
    obtain rfl := ok.inj h
    exact (append_nil _).symm
  | cons id ids ih =>
    unfold rebuild at h
    split at h
    · cases h
    split at h
    · cases h
    split at h
    · cases h
    · rename_i b1 e hadd
      obtain ⟨rfl, -, -, hentries⟩ := PackBuilder.add_eq_some hadd
      rw [ih h, hentries, map_append, append_assoc]
      rfl

theorem runs_pauseOrFail {e : StoreError} {step : Step}
    (h : (pauseOrFail protection e).Runs s (.ok step) t) : step = .pausedFull := by
  cases e with
  | full =>
    obtain ⟨_, _, _, hret⟩ := runs_bind_ok.mp h
    exact ok.inj hret.1
  | notFound | unavailable message | rejected message => cases h.1

/-- A move that was not paused inserted a new pack, with an entry for every chunk of the old, and
committed. -/
theorem moveOne_ok {now : ℤ} {step : Step}
    (h : (moveOne c protection target scope old runId now).Runs s (.ok step) t)
    (hstep : step ≠ .pausedFull) :
    step = .moved ∧ ∃ (pack : SealedPack) (u : State), s.db.packs.get? pack.id = none ∧
      u.db = { s.db with packs := u.db.packs } ∧
      (∀ p, u.db.packs.get? p = if p = pack.id
        then some ⟨scope, .pending, runId, pack.bytes.length, 0, now⟩ else s.db.packs.get? p) ∧
      commitMove u.db protection target scope old pack = .ok t.db ∧
      pack.entries.map IndexEntry.id = chunkRows s.db scope old ∧ chunkRows s.db scope old ≠ [] := by
  unfold moveOne at h
  split at h
  · cases h.1
  obtain ⟨⟨oldKeys, rows⟩, s1, hread, h1⟩ := runs_bind_ok.mp h
  obtain ⟨hrows, rfl⟩ := runs_read hread
  obtain ⟨-, rfl⟩ := Prod.mk.inj hrows
  dsimp only at h1
  split at h1
  · cases h1.1
  rename_i hne
  obtain ⟨bytes, s2, hget, h2⟩ := runs_bind_ok.mp h1
  obtain rfl := (runs_getPack hget).2
  obtain ⟨opened, s3, hopen, h3⟩ := runs_bind_ok.mp h2
  obtain rfl := (runs_orError.mp hopen).2
  split at h3
  · cases h3.1
  obtain ⟨b, s4, hrebuild, h4⟩ := runs_bind_ok.mp h3
  obtain ⟨hb, rfl⟩ := runs_ofExcept.mp hrebuild
  obtain ⟨pack, s5, hseal, h5⟩ := runs_bind_ok.mp h4
  obtain ⟨hentries, rfl⟩ := runs_sealPack hseal
  obtain ⟨⟨⟩, s6, hins, h6⟩ := runs_bind_ok.mp h5
  obtain ⟨hnone, heq, hpacks⟩ := runs_insertPack hins
  obtain ⟨_ | ⟨⟨⟩⟩, s7, hput, h7⟩ := runs_bind_ok.mp h6
  · -- The upload failed: the step pauses or fails.
    obtain ⟨_, _, _, hpause⟩ := runs_bind_ok.mp h7
    exact absurd (runs_pauseOrFail hpause) hstep
  · obtain rfl := runs_putPack hput
    obtain ⟨_ | ⟨⟨⟩⟩, s8, hcommit, h8⟩ := runs_bind_ok.mp h7
    · obtain ⟨_, _, _, hfail⟩ := runs_bind_ok.mp h8
      cases hfail.1
    · obtain ⟨db, hdb, rfl⟩ := runs_transact (runs_attempt.mp hcommit)
      obtain ⟨hmoved, rfl⟩ := h8
      have hids : pack.entries.map IndexEntry.id = chunkRows s5.db scope old := by
        rw [hentries, rebuild_ids hb.symm]
        rfl
      exact ⟨ok.inj hmoved, pack, s6, hnone, heq, hpacks, hdb, hids, hne⟩

theorem runs_readTree {record : SnapshotRecord} {treeKey : Bytes32} {tree : Tree}
    (h : (readTree c j record treeKey).Runs s (.ok tree) t) : t = s := by
  obtain ⟨bytes, s1, hget, h1⟩ := runs_bind_ok.mp h
  obtain rfl := (runs_getPack hget).2
  exact (runs_orError.mp h1).2

theorem runs_buildTree {scopeId keyBytes : Bytes32} {tree : Tree} {r : Bytes32 × IndexEntry × SealedPack}
    (h : (buildTree c j scopeId tree keyBytes).Runs s (.ok r) t) : t = s := by
  obtain ⟨bytes, s1, hdraw, h1⟩ := runs_bind_ok.mp h
  obtain ⟨i, -, rfl⟩ := runs_look.mp hdraw
  obtain ⟨⟨b, e⟩, s2, hadd, h2⟩ := runs_bind_ok.mp h1
  obtain rfl := (runs_orPanic.mp hadd).2
  obtain ⟨pack, s3, hseal, h3⟩ := runs_bind_ok.mp h2
  obtain rfl := (runs_sealPack hseal).2
  exact h3.2

/-- A rewrite that was not paused inserted its tree pack and committed with the packs its chunks are in. -/
theorem rewriteOne_ok {now : ℤ} {step : Step}
    (h : (rewriteOne c j protection target scope id snapshot runId now).Runs s (.ok step) t)
    (hstep : step ≠ .pausedFull) :
    step = .rewrote ∧ ∃ (pack : SealedPack) (u : State) (oldEntries entries : List TreeEntry)
        (treeHash : Bytes32) (place : IndexEntry) (signed : SignedRecord) (db : Db),
      s.db.packs.get? pack.id = none ∧ u.db = { s.db with packs := u.db.packs } ∧
      (∀ p, u.db.packs.get? p = if p = pack.id
        then some ⟨scope, .pending, runId, pack.bytes.length, 0, now⟩ else s.db.packs.get? p) ∧
      placeChunks s.db target scope oldEntries = .ok entries ∧
      commitRewrite u.db protection target scope id snapshot pack.id treeHash place signed
        (linksOf entries) now = .ok db ∧
      t.db = { db with resync := db.resync.erase (protection, id) } := by
  obtain ⟨⟨luna, oldKey⟩, s1, hkeys, h1⟩ := runs_bind_ok.mp h
  obtain ⟨keys, s2, hread, horError⟩ := runs_bind_ok.mp hkeys
  obtain rfl := (runs_read hread).2
  obtain rfl := (runs_orError.mp horError).2
  obtain ⟨oldRecord, s3, hverify, h2⟩ := runs_bind_ok.mp h1
  obtain rfl := (runs_orError.mp hverify).2
  obtain ⟨oldTree, s4, htree, h3⟩ := runs_bind_ok.mp h2
  obtain rfl := runs_readTree htree
  obtain ⟨details, s5, hdetails, h4⟩ := runs_bind_ok.mp h3
  obtain rfl := (runs_orError.mp hdetails).2
  obtain ⟨entries, s6, hplace, h5⟩ := runs_bind_ok.mp h4
  obtain ⟨placed, s7, hread', horError'⟩ := runs_bind_ok.mp hplace
  obtain ⟨rfl, rfl⟩ := runs_read hread'
  obtain ⟨hentries, rfl⟩ := runs_orError.mp horError'
  obtain ⟨⟨treeHash, place, pack⟩, s8, hbuild, h6⟩ := runs_bind_ok.mp h5
  obtain rfl := runs_buildTree hbuild
  obtain ⟨newDetails, s9, hdraw, h7⟩ := runs_bind_ok.mp h6
  obtain ⟨i, -, rfl⟩ := runs_look.mp hdraw
  obtain ⟨⟨⟩, s10, hins, h8⟩ := runs_bind_ok.mp h7
  obtain ⟨hnone, heq, hpacks⟩ := runs_insertPack hins
  obtain ⟨_ | ⟨⟨⟩⟩, s11, hput, h9⟩ := runs_bind_ok.mp h8
  · obtain ⟨_, _, _, hpause⟩ := runs_bind_ok.mp h9
    exact absurd (runs_pauseOrFail hpause) hstep
  · obtain rfl := runs_putPack hput
    obtain ⟨_ | ⟨⟨⟩⟩, s12, hcommit, h10⟩ := runs_bind_ok.mp h9
    · obtain ⟨_, _, _, hfail⟩ := runs_bind_ok.mp h10
      cases hfail.1
    · obtain ⟨db, hdb, rfl⟩ := runs_transact (runs_attempt.mp hcommit)
      obtain ⟨⟨⟩, s13, hrecord, h11⟩ := runs_bind_ok.mp h10
      have hdb13 := runs_putRecord_db hrecord
      obtain ⟨⟨⟩, s14, hclear, h12⟩ := runs_bind_ok.mp h11
      obtain rfl := runs_write hclear
      obtain ⟨hrewrote, rfl⟩ := h12
      refine ⟨ok.inj hrewrote, pack, s10, oldTree.entries, entries, treeHash, place, _, db, hnone, heq,
        hpacks, hentries, hdb, ?_⟩
      rw [hdb13]

end Runs

/-! ### The two kinds of work -/

/-- The commit of a move takes the old pack out of what is left. -/
theorem commitMove_renews {db1 : Db}
    (hnew : target.createdAt ≤ row.createdAt) (hdb1 : db1 = { db with packs := db1.packs })
    (hpacks : ∀ p, db1.packs.get? p = if p = pack.id then some row else db.packs.get? p)
    (hids : pack.entries.map IndexEntry.id = chunkRows db scope old)
    (h : commitMove db1 protection target scope old pack = .ok db') :
    Renews target db db' ∧ old ∉ packsLeft db' target scope := by
  obtain ⟨hdb', hrows, hchunks, hlinks⟩ := commitMove_ok h
  have hold : ∀ p, olderPack db' target p = true → p ≠ pack.id ∧ olderPack db target p = true := by
    intro p hp
    rw [olderPack_map (fun p row => by split <;> rfl) hrows] at hp
    exact olderPack_insert hnew hpacks hp
  have hindex : ∀ k place, db'.chunks.get? k = some place → olderPack db' target place.pack = true →
      db.chunks.get? k = some place ∧ (k.1 = scope → k.2 ∉ chunkRows db scope old) := by
    intro k place hk hp
    rcases hchunks k with ⟨hsame, hnot⟩ | ⟨e, -, -, hget⟩
    · rw [hsame, hdb1] at hk
      exact ⟨hk, hids ▸ hnot⟩
    · rw [hget, some.injEq] at hk
      subst hk
      exact absurd rfl (hold _ hp).1
  refine ⟨⟨?_, ?_, fun p hp => (hold p hp).2, fun l hl hp => ?_, fun k place hk hp => (hindex k place hk hp).1,
    fun id s hs => .inl ?_⟩, fun hmem => ?_⟩
  · rw [hdb', hdb1]
  · rw [hdb', hdb1]
  · rcases (hlinks l).mp hl with hl | ⟨hpack, -⟩
    · rw [hdb1] at hl
      exact hl
    · exact absurd hpack (hold _ hp).1
  · rw [hdb', hdb1] at hs
    exact hs
  · obtain ⟨hp, -, id, place, hk, rfl⟩ := mem_packsLeft.mp hmem
    obtain ⟨hget, hnot⟩ := hindex _ place hk hp
    exact hnot rfl (mem_chunkRows.mpr ⟨place, hget, rfl⟩)

/-- The commit of a rewrite takes its snapshot out of what is left. -/
theorem commitRewrite_renews {db1 : Db} {tree treeHash : Bytes32}
    {place : IndexEntry} {signed : SignedRecord} {es es' : List TreeEntry} {now : ℤ}
    (hnew : target.createdAt ≤ row.createdAt) (hdb1 : db1 = { db with packs := db1.packs })
    (hpacks : ∀ p, db1.packs.get? p = if p = tree then some row else db.packs.get? p)
    (hsnapshot : db.snapshots.get? id = some snapshot) (hplaced : placeChunks db target scope es = .ok es')
    (h : commitRewrite db1 protection target scope id snapshot tree treeHash place signed (linksOf es') now =
      .ok db') :
    Renews target db db' ∧ id ∉ snapshotsLeft db' protection target := by
  obtain ⟨hdb', hrows, hchunks, hsnapshots, hlinks, -, -⟩ := commitRewrite_ok h
  have hold : ∀ p, olderPack db' target p = true → p ≠ tree ∧ olderPack db target p = true := by
    intro p hp
    rw [olderPack_map (fun p row => by split <;> [rfl; (split <;> rfl)]) hrows] at hp
    exact olderPack_insert hnew hpacks hp
  have hlinked : ∀ p ∈ tree :: linksOf es', olderPack db' target p = false := by
    intro p hp
    rw [Bool.eq_false_iff]
    intro hp'
    obtain ⟨hne, hp'⟩ := hold p hp'
    obtain ⟨row, hrow, hlt⟩ := olderPack_iff.mp hp'
    obtain ⟨row', hrow', -, hle⟩ := linksOf_placed hplaced ((mem_cons.mp hp).resolve_left hne)
    obtain rfl := some.inj (hrow.symm.trans hrow')
    omega
  have hid : ∀ p, (id, p) ∈ db'.links → olderPack db' target p = false := by
    intro p hp
    rcases (hlinks (id, p)).mp hp with ⟨-, hne⟩ | ⟨-, hp⟩
    · exact absurd rfl hne
    · exact hlinked p hp
  have hsnapshot' := hsnapshots id
  rw [hdb1] at hsnapshot'
  simp only [hsnapshot] at hsnapshot'
  refine ⟨⟨?_, ?_, fun p hp => (hold p hp).2, fun l hl hp => ?_, fun k p hk hp => ?_, fun i s hs => ?_⟩,
    not_mem_snapshotsLeft hsnapshot' rfl fun p hp _ => hid p hp⟩
  · rw [hdb', hdb1]
  · rw [hdb', hdb1]
  · rcases (hlinks l).mp hl with ⟨hl, -⟩ | ⟨-, hl⟩
    · rw [hdb1] at hl
      exact hl
    · rw [hlinked _ hl] at hp
      cases hp
  · rw [hchunks k] at hk
    split at hk
    · rw [some.injEq] at hk
      subst hk
      exact absurd rfl (hold _ hp).1
    · rw [hdb1] at hk
      exact (filter_eq_some_iff.mp hk).1
  · by_cases hi : i = id
    · subst hi
      obtain rfl := some.inj (hsnapshot'.symm.trans hs)
      exact .inr ⟨rfl, fun p hp _ => hid p hp⟩
    · rw [hsnapshots i, hdb1] at hs
      simp only [hi, if_false, Option.map_id'] at hs
      exact .inl hs

/-! ### Choosing the work -/

theorem nextWork_some {work : Work} (h : nextWork db protection target scope = some work) :
    ∃ id s, db.snapshots.get? id = some s ∧ s.protectionId = protection ∧
      workOf db protection target scope id s = some work := by
  obtain ⟨⟨id, s⟩, hmem, hwork⟩ := exists_of_findSome?_eq_some h
  rw [Db.listCloudSnapshots, mem_insertionSort, mem_select, decide_eq_true_eq] at hmem
  exact ⟨id, s, hmem.1, hmem.2, hwork⟩

theorem nextWork_move {pack : Bytes32} (h : nextWork db protection target scope = some (.move pack)) :
    olderPack db target pack = true ∧ ∃ id, (id, pack) ∈ db.links := by
  obtain ⟨id, s, -, -, hwork⟩ := nextWork_some h
  unfold workOf at hwork
  split at hwork
  · cases hwork
  split at hwork
  · rename_i pack' hhead
    obtain rfl := Work.move.inj (some.inj hwork)
    have hmem := mem_of_mem_head? hhead
    rw [candidates, Db.mem_sortIds] at hmem
    obtain ⟨⟨p, row⟩, hsel, rfl⟩ := mem_map.mp hmem
    rw [mem_select, decide_eq_true_eq] at hsel
    obtain ⟨hrow, hlink, -, -, hlt, -⟩ := hsel
    exact ⟨olderPack_iff.mpr ⟨row, hrow, hlt⟩, id, hlink⟩
  · split at hwork
    · cases hwork
    · cases hwork

theorem nextWork_rewrite {s : Snapshot} (h : nextWork db protection target scope = some (.rewrite id s)) :
    db.snapshots.get? id = some s ∧ id ∈ snapshotsLeft db protection target := by
  obtain ⟨id', s', hs', hprot, hwork⟩ := nextWork_some h
  unfold workOf at hwork
  split at hwork
  · cases hwork
  rename_i hline
  split at hwork
  · cases hwork
  · split at hwork
    · rename_i hleft
      obtain ⟨rfl, rfl⟩ := Work.rewrite.inj (some.inj hwork)
      exact ⟨hs', mem_snapshotsLeft.mpr ⟨s', hs', hprot, by simpa using hline, hleft⟩⟩
    · cases hwork

/-- There is nothing to move for the backup. -/
def NoWork (c : Crypto) (db : Db) (protection : String) : Prop :=
  ∀ target, loadTarget db protection = .ok (some target) →
    nextWork db protection target (scopeName (scopeIdOf c target.dedupKey)) = none

theorem SameIndex.noWork (h : SameIndex db db') : NoWork c db' protection ↔ NoWork c db protection := by
  refine forall_congr' fun target => ?_
  rw [h.loadTarget, h.nextWork]

/-! ### One step -/

section Step

variable {s t : State} {step : Step} {now : ℤ}

theorem runs_findWork {r : Option (Target × Work)} (h : (findWork c protection).Runs s (.ok r) t) :
    SameIndex s.db t.db ∧
      match r with
      | none => NoWork c s.db protection
      | some (target, work) => loadTarget s.db protection = .ok (some target) ∧
          nextWork s.db protection target (scopeName (scopeIdOf c target.dedupKey)) = some work := by
  obtain ⟨-, hi⟩ := runs_tryAct.mp h
  cases hload : loadTarget s.db protection with
  | error e => simp [hload] at hi
  | ok target? =>
    cases target? with
    | none =>
      simp only [hload, Prod.mk.injEq, ok.injEq] at hi
      obtain ⟨rfl, rfl⟩ := hi
      exact ⟨SameIndex.refl _, fun target htarget => by rw [hload] at htarget; cases htarget⟩
    | some target =>
      cases hnext : nextWork s.db protection target (scopeName (scopeIdOf c target.dedupKey)) with
      | none =>
        simp only [hload, hnext, Prod.mk.injEq, ok.injEq] at hi
        obtain ⟨rfl, rfl⟩ := hi
        refine ⟨⟨rfl, rfl, rfl, rfl, rfl, rfl⟩, fun target' htarget' => ?_⟩
        rw [hload] at htarget'
        obtain rfl := some.inj (ok.inj htarget')
        exact hnext
      | some work =>
        simp only [hload, hnext, Prod.mk.injEq, ok.injEq] at hi
        obtain ⟨rfl, rfl⟩ := hi
        exact ⟨SameIndex.refl _, rfl, hnext⟩

/-- A program of which every section leaves the index alone leaves it alone. -/
theorem sameIndex_of_only {α : Type} {p : Job α} {r : Except Fault α}
    (h : p.Only fun _ s t => SameIndex s.db t.db) (hr : p.Runs s r t) : SameIndex s.db t.db :=
  h.runs (fun _ _ _ h => h) (fun s => SameIndex.refl s.db) (fun _ _ _ => SameIndex.trans) hr

theorem resyncRecords_only (protection : String) :
    (resyncRecords protection).Only fun _ s t => SameIndex s.db t.db := by
  refine (only_read fun s => SameIndex.refl s.db).bind fun pending => ?_
  induction pending with
  | nil => trivial
  | cons p pending ih =>
    have hclear : Prog.Only (fun _ s t => SameIndex s.db t.db) (do
        write (.clearResync protection p.1) fun db =>
          { db with resync := db.resync.erase (protection, p.1) }
        resyncEach protection pending) :=
      Prog.Only.bind (only_write fun s => ⟨rfl, rfl, rfl, rfl, rfl, rfl⟩) fun _ => ih
    refine (only_read fun s => SameIndex.refl s.db).bind fun record => ?_
    cases record with
    | none => exact hclear
    | some record =>
      exact (only_putRecord (fun s => SameIndex.refl s.db) fun s => SameIndex.refl s.db).bind fun _ => hclear

/-- What the work of a step does when it is not paused: a move shrinks the packs that are left, a rewrite
the snapshots, and neither set grows. -/
structure Shrinks (c : Crypto) (target : Target) (protection : String) (step : Step) (db db' : Db) :
    Prop where
  renews : Renews target db db'
  less :
    (step = .moved ∧ packsLeft db' target (scopeName (scopeIdOf c target.dedupKey)) ⊂
        packsLeft db target (scopeName (scopeIdOf c target.dedupKey))) ∨
      (step = .rewrote ∧ snapshotsLeft db' protection target ⊂ snapshotsLeft db protection target)

theorem moveOne_shrinks (hnow : target.createdAt ≤ now)
    (hwork : nextWork s.db protection target (scopeName (scopeIdOf c target.dedupKey)) = some (.move old))
    (h : (moveOne c protection target (scopeName (scopeIdOf c target.dedupKey)) old runId now).Runs s
      (.ok step) t) (hstep : step ≠ .pausedFull) : Shrinks c target protection step s.db t.db := by
  obtain ⟨rfl, pack, u, -, hdb1, hpacks, hcommit, hids, hne⟩ := moveOne_ok h hstep
  obtain ⟨hrenews, hout⟩ := commitMove_renews hnow hdb1 hpacks hids hcommit
  obtain ⟨hold, hlink⟩ := nextWork_move hwork
  obtain ⟨id, hid⟩ := exists_mem_of_ne_nil _ hne
  have hmem : old ∈ packsLeft s.db target (scopeName (scopeIdOf c target.dedupKey)) := by
    obtain ⟨place, hget, hpack⟩ := mem_chunkRows.mp hid
    exact mem_packsLeft.mpr ⟨hold, hlink, id, place, hget, hpack⟩
  refine ⟨hrenews, .inl ⟨rfl, ?_⟩⟩
  exact Finset.ssubset_iff_subset_ne.mpr ⟨hrenews.packsLeft_subset, fun heq => hout (heq ▸ hmem)⟩

theorem rewriteOne_shrinks
    (hnow : target.createdAt ≤ now) (hwork : nextWork s.db protection target scope = some (.rewrite id snapshot))
    (h : (rewriteOne c j protection target scope id snapshot runId now).Runs s (.ok step) t)
    (hstep : step ≠ .pausedFull) : Shrinks c target protection step s.db t.db := by
  obtain ⟨rfl, pack, u, es, es', treeHash, place, signed, db, -, hdb1, hpacks, hplaced, hcommit, ht⟩ :=
    rewriteOne_ok h hstep
  obtain ⟨hsnapshot, hmem⟩ := nextWork_rewrite hwork
  obtain ⟨hrenews, hout⟩ := commitRewrite_renews hnow hdb1 hpacks hsnapshot hplaced hcommit
  have hsame : SameIndex db t.db := by
    rw [ht]
    exact ⟨rfl, rfl, rfl, rfl, rfl, rfl⟩
  have hrenews' := hrenews.sameIndex hsame
  refine ⟨hrenews', .inr ⟨rfl, ?_⟩⟩
  refine Finset.ssubset_iff_subset_ne.mpr ⟨hrenews'.snapshotsLeft_subset, fun heq => hout ?_⟩
  rw [← heq, ht] at hmem
  exact hmem

/-- The backup's slot was free, and the step ended in `done`, `moved` or `rewrote`. -/
def Step.Successful (step : Step) : Prop := step = .done ∨ step = .moved ∨ step = .rewrote

theorem runs_startStepRun
    (h : (startStepRun protection scope now).Runs s (.ok runId) t) : SameIndex s.db t.db := by
  obtain ⟨i, hi⟩ := runs_tryAct.mp h
  unfold Db.startRun at hi
  cases hrun : s.db.runs.get? i.id with
  | some row => simp [hrun] at hi
  | none =>
    simp only [hrun, Prod.mk.injEq] at hi
    rw [← hi.2]
    exact ⟨rfl, rfl, rfl, rfl, rfl, rfl⟩

theorem stepHolding_ok (h : (stepHolding c j protection now).Runs s (.ok step) t)
    (hstep : step.Successful)
    (hnow : ∀ target, loadTarget s.db protection = .ok (some target) → target.createdAt ≤ now) :
    (step = .done ∧ SameIndex s.db t.db ∧ NoWork c s.db protection) ∨
      ∃ target, loadTarget s.db protection = .ok (some target) ∧ ¬ NoWork c s.db protection ∧
        ∃ db db', SameIndex s.db db ∧ Shrinks c target protection step db db' ∧ SameIndex db' t.db := by
  obtain ⟨⟨⟩, s1, hresync, h1⟩ := runs_bind_ok.mp h
  have hsame1 := sameIndex_of_only (resyncRecords_only protection) hresync
  obtain ⟨found, s2, hfind, h2⟩ := runs_bind_ok.mp h1
  obtain ⟨hsame2, hfound⟩ := runs_findWork hfind
  cases found with
  | none =>
    obtain ⟨hdone, rfl⟩ := h2
    exact .inl ⟨ok.inj hdone, hsame1.trans hsame2, hsame1.noWork.mp hfound⟩
  | some found =>
    obtain ⟨target, work⟩ := found
    obtain ⟨hload, hwork⟩ := hfound
    rw [hsame1.loadTarget] at hload
    obtain ⟨runId, s3, hstart, h3⟩ := runs_bind_ok.mp h2
    have hsame3 := runs_startStepRun hstart
    obtain ⟨result, s4, hresult, h4⟩ := runs_bind_ok.mp h3
    have hrun := runs_attempt.mp hresult
    have hwork3 : nextWork s3.db protection target (scopeName (scopeIdOf c target.dedupKey)) = some work := by
      rw [(hsame2.trans hsame3).nextWork]
      exact hwork
    cases result with
    | error fault =>
      cases fault with
      | panic => cases h4.1
      | error e =>
        obtain ⟨_, _, _, hfail⟩ := runs_bind_ok.mp h4
        cases hfail.1
    | ok step' =>
      obtain ⟨_, s5, hend, h5⟩ := runs_bind_ok.mp h4
      obtain rfl := runs_write hend
      obtain ⟨hstep', rfl⟩ := h5
      obtain rfl := ok.inj hstep'
      have hpaused : step ≠ .pausedFull := by
        rintro rfl
        rcases hstep with h | h | h <;> cases h
      have hsame := (hsame1.trans hsame2).trans hsame3
      have hsome : ¬ NoWork c s.db protection := by
        intro hnone
        rw [hsame.nextWork, hnone target hload] at hwork3
        cases hwork3
      refine .inr ⟨target, hload, hsome, s3.db, s4.db, hsame, ?_, ⟨rfl, rfl, rfl, rfl, rfl, rfl⟩⟩
      cases work with
      | move old => exact moveOne_shrinks (hnow target hload) hwork3 hrun hpaused
      | rewrite id snapshot => exact rewriteOne_shrinks (hnow target hload) hwork3 hrun hpaused

theorem rewrapStep_ok (h : (rewrapStep c j protection now).Runs s (.ok step) t)
    (hstep : step.Successful)
    (hnow : ∀ target, loadTarget s.db protection = .ok (some target) → target.createdAt ≤ now) :
    (step = .done ∧ SameIndex s.db t.db ∧ NoWork c s.db protection) ∨
      ∃ target, loadTarget s.db protection = .ok (some target) ∧ ¬ NoWork c s.db protection ∧
        ∃ db db', SameIndex s.db db ∧ Shrinks c target protection step db db' ∧ SameIndex db' t.db := by
  obtain ⟨⟨slots, busy⟩, s1, htake, h1⟩ := runs_bind_ok.mp h
  have hsame1 := sameIndex_of_only (only_takeSlots (fun _ s _ => SameIndex.refl s.db) [protection]) htake
  dsimp only at h1
  split at h1
  · obtain rfl := ok.inj h1.1
    rcases hstep with h | h | h <;> cases h
  obtain ⟨result, s2, hresult, h2⟩ := runs_bind_ok.mp h1
  have hrun := runs_attempt.mp hresult
  obtain ⟨_, s3, hdrop, h3⟩ := runs_bind_ok.mp h2
  obtain ⟨_, _, rfl⟩ := runs_act.mp hdrop
  obtain ⟨rfl, rfl⟩ := runs_ofExcept.mp h3
  have hnow1 : ∀ target, loadTarget s1.db protection = .ok (some target) → target.createdAt ≤ now := by
    intro target htarget
    rw [hsame1.loadTarget] at htarget
    exact hnow target htarget
  rcases stepHolding_ok hrun hstep hnow1 with ⟨hdone, hsame, hnone⟩ | ⟨target, hload, hsome, db, db', hs, hless, ht⟩
  · exact .inl ⟨hdone, hsame1.trans hsame, hsame1.noWork.mp hnone⟩
  · rw [hsame1.loadTarget] at hload
    exact .inr ⟨target, hload, fun hnone => hsome (hsame1.noWork.mpr hnone), db, db', hsame1.trans hs, hless, ht⟩

/-- A step that did something strictly lowers the measure. -/
theorem Shrinks.workLeft_lt {target : Target} (h : Shrinks c target protection step db db')
    (hload : loadTarget db protection = .ok (some target)) :
    Prod.Lex (· < ·) (· < ·) (workLeft c db' protection) (workLeft c db protection) ∧
      (workLeft c db' protection).1 + (workLeft c db' protection).2 <
        (workLeft c db protection).1 + (workLeft c db protection).2 := by
  have hload' := (h.renews.loadTarget protection).trans hload
  have hpacks : (packsLeft db' target (scopeName (scopeIdOf c target.dedupKey))).card ≤
      (packsLeft db target (scopeName (scopeIdOf c target.dedupKey))).card :=
    Finset.card_le_card h.renews.packsLeft_subset
  have hsnapshots : (snapshotsLeft db' protection target).card ≤ (snapshotsLeft db protection target).card :=
    Finset.card_le_card h.renews.snapshotsLeft_subset
  simp only [workLeft, hload, hload']
  rcases h.less with ⟨-, hlt⟩ | ⟨-, hlt⟩
  · have hlt := Finset.card_lt_card hlt
    exact ⟨Prod.Lex.left _ _ hlt, by omega⟩
  have hlt := Finset.card_lt_card hlt
  refine ⟨?_, by omega⟩
  rcases hpacks.lt_or_eq with hpacks | hpacks
  · exact Prod.Lex.left _ _ hpacks
  · rw [hpacks]
    exact Prod.Lex.right _ hlt

/-- What a successful step comes to: there was nothing to do, or the measure is lower. -/
def Progress (c : Crypto) (protection : String) (step : Step) (db db' : Db) : Prop :=
  (step = .done ∧ NoWork c db protection ∧ NoWork c db' protection) ∨
    (step ≠ .done ∧ ¬ NoWork c db protection ∧
      Prod.Lex (· < ·) (· < ·) (workLeft c db' protection) (workLeft c db protection) ∧
      (workLeft c db' protection).1 + (workLeft c db' protection).2 <
        (workLeft c db protection).1 + (workLeft c db protection).2)

theorem rewrapStep_progress (h : (rewrapStep c j protection now).Runs s (.ok step) t)
    (hstep : step.Successful)
    (hnow : ∀ target, loadTarget s.db protection = .ok (some target) → target.createdAt ≤ now) :
    Progress c protection step s.db t.db := by
  rcases rewrapStep_ok h hstep hnow with ⟨hdone, hsame, hnone⟩ | ⟨target, hload, hsome, db, db', hs, hless, ht⟩
  · exact .inl ⟨hdone, hnone, hsame.noWork.mpr hnone⟩
  · refine .inr ⟨?_, hsome, ?_⟩
    · rcases hless.less with ⟨rfl, -⟩ | ⟨rfl, -⟩ <;> exact Step.noConfusion
    · rw [ht.workLeft, ← hs.workLeft]
      rw [← hs.loadTarget] at hload
      exact hless.workLeft_lt hload

end Step

/-! ### Whole sequences -/

/-- `n` calls one after another, each from the state the last one left, each successful and at a time not
before the target key was made. -/
structure StepsInTurn (c : Crypto) (j : Json) (protection : String) (n : ℕ) (now : ℕ → ℤ) (step : ℕ → Step)
    (state : ℕ → State) : Prop where
  runs : ∀ k < n, (rewrapStep c j protection (now k)).Runs (state k) (.ok (step k)) (state (k + 1))
  successful : ∀ k < n, (step k).Successful
  late : ∀ k < n, ∀ target, loadTarget (state k).db protection = .ok (some target) →
    target.createdAt ≤ now k

section Sequences

variable {n : ℕ} {now : ℕ → ℤ} {step : ℕ → Step} {state : ℕ → State}

section

variable (h : StepsInTurn c j protection n now step state)
include h

theorem StepsInTurn.progress {k : ℕ} (hk : k < n) : Progress c protection (step k) (state k).db (state (k + 1)).db :=
  rewrapStep_progress (h.runs k hk) (h.successful k hk) (h.late k hk)

/-- Once there is nothing to do, every later step is `done`. -/
theorem StepsInTurn.stays_done {m : ℕ} (hm : NoWork c (state m).db protection) {k : ℕ} (hmk : m ≤ k) (hk : k < n) :
    step k = .done ∧ NoWork c (state (k + 1)).db protection := by
  induction k, hmk using Nat.le_induction with
  | base =>
    rcases h.progress hk with ⟨hdone, -, hnone⟩ | ⟨-, hsome, -⟩
    · exact ⟨hdone, hnone⟩
    · exact absurd hm hsome
  | succ k hmk ih =>
    have hprev := (ih (by omega)).2
    rcases h.progress hk with ⟨hdone, -, hnone⟩ | ⟨-, hsome, -⟩
    · exact ⟨hdone, hnone⟩
    · exact absurd hprev hsome

/-- As long as no step was `done`, each of them has used up at least one piece of work. -/
theorem StepsInTurn.workLeft_le {k : ℕ} (hk : k ≤ n) (hbusy : ∀ i < k, step i ≠ .done) :
    (workLeft c (state k).db protection).1 + (workLeft c (state k).db protection).2 + k ≤
      (workLeft c (state 0).db protection).1 + (workLeft c (state 0).db protection).2 := by
  induction k with
  | zero => exact le_rfl
  | succ k ih =>
    have hle := ih (by omega) fun i hi => hbusy i (by omega)
    rcases h.progress (show k < n by omega) with ⟨hdone, -⟩ | ⟨-, -, -, hlt⟩
    · exact absurd hdone (hbusy k (by omega))
    · omega

end

end Sequences

/-! One file backed up under version 1; version 2 was made at time 20. -/

def keptKeys : State :=
  let dedupKey := Fixed.fill 32 9
  ⟨{ Db.empty with
      identity := some ⟨"luna", Fixed.fill 32 5⟩
      protections := Table.empty.put "p" ⟨"d1", "/photos", "ana", "", ⟨["ana"], true⟩⟩
      backupKeys := (Table.empty.put ("p", 1) ⟨1, (Fixed.fill 32 1).val, dedupKey.val, 10⟩).put ("p", 2)
        ⟨2, (Fixed.fill 32 2).val, dedupKey.val, 20⟩ }, ⟨.empty, .empty⟩, ∅⟩

def underFirstKey : RunContext :=
  let dedupKey := Fixed.fill 32 9
  let scopeId := scopeIdOf toyCrypto dedupKey
  ⟨[3], "p", scopeName scopeId, scopeId, dedupKey, 1, ⟨"luna", Fixed.fill 32 5⟩,
    encryptMeta toyCrypto toyJson ⟨"photos", "d1", "/photos", "ana", "Ana"⟩ (Fixed.fill 32 1)
      (Fixed.fill nonceLen 1), Fixed.fill 32 1⟩

def onePhoto : Source := ⟨fun _ => true, .ok [⟨"a.jpg", 2, 7, [[1, 2]], none⟩]⟩

def keyMove : ℕ → State
  | 0 => ((copyAndCommit toyCrypto toyJson underFirstKey onePhoto 15).under (.drawn 40) keptKeys).2
  | k + 1 => ((rewrapStep toyCrypto toyJson "p" (30 + k)).under (.drawn (50 + 10 * k.toUInt8)) (keyMove k)).2

def keyMoveStep (k : ℕ) : Step := if k = 0 then .moved else if k = 1 then .rewrote else .done

theorem keyMove_stepsInTurn :
    StepsInTurn toyCrypto toyJson "p" 3 (fun k => 30 + k) keyMoveStep keyMove := by
  have hsteps : ∀ k : ℕ, k < 3 → ((rewrapStep toyCrypto toyJson "p" (30 + k)).under
      (.drawn (50 + 10 * k.toUInt8)) (keyMove k)).1 = .ok (keyMoveStep k) := by decide +kernel
  have htargets : ∀ k < 3, (loadTarget (keyMove k).db "p").toOption.map (Option.map Target.createdAt) =
      some (some 20) := by decide +kernel
  refine ⟨fun k hk => ?_, fun k hk => ?_, fun k hk target htarget => ?_⟩
  · rw [← hsteps k hk]
    exact runs_under ..
  · unfold keyMoveStep
    split
    · exact .inr (.inl rfl)
    · split
      · exact .inr (.inr rfl)
      · exact .inl rfl
  · have h := htargets k hk
    rw [htarget] at h
    have hcreated : target.createdAt = 20 := some.inj (some.inj h)
    omega

end LibreServ.Cloud
