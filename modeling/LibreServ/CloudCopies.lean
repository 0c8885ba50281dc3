import LibreServ.CloudRun

/-! Key copies: what opens a copy that was sealed, which rows `list_backup_keys` gives, and the sections of a
backup run that leave keys, readers and copies alone. -/

namespace LibreServ.Cloud

open Sections List Table Except

variable {c : Crypto} {j : Json} {s t : State} {protection : String} {db : Db} {key : BackupKey}

/-! ### A sealed copy opens -/

theorem sealKeyCopy_ok {seed : Bytes32} {rand : Bytes} {reader : SealPublic} {aad key dedupKey copy : Bytes}
    (h : sealKeyCopy c seed rand reader aad key dedupKey = .ok copy) :
    key.length = 32 ∧ dedupKey.length = 32 ∧ copy = c.sealCopy rand reader aad (key ++ dedupKey) ++
      (c.sign seed (signedBytes "key-copy"
        (keyCopyMessage aad (c.sealCopy rand reader aad (key ++ dedupKey))))).val := by
  unfold sealKeyCopy at h
  split at h
  · cases h
  rename_i hlen
  rw [not_or, not_not, not_not] at hlen
  unfold Crypto.sealTo at h
  split at h
  · exact ⟨hlen.1, hlen.2, (ok.inj h).symm⟩
  · cases h

/-- The user with the secret opens the copy, and finds the key and the dedup key in it. -/
theorem openKey_sealKeyCopy {luna : Identity} {rand : Bytes} {secret : SealSecret} {user : String}
    {version : ℤ} {key dedupKey copy : Bytes}
    (h : sealKeyCopy c luna.seed rand (c.sealPublic secret) (keyAad luna.lunaId protection version user) key
      dedupKey = .ok copy) :
    ∃ k d : Bytes32, k.val = key ∧ d.val = dedupKey ∧
      openKey c copy secret (c.sigPublic luna.seed) luna.lunaId protection version user = .ok (k, d) := by
  obtain ⟨hkey, hdedup, rfl⟩ := sealKeyCopy_ok h
  refine ⟨⟨key, hkey⟩, ⟨dedupKey, hdedup⟩, rfl, rfl, ?_⟩
  have hpos := c.sealCopy_length rand (c.sealPublic secret) (keyAad luna.lunaId protection version user)
    (key ++ dedupKey)
  generalize hsealed : c.sealCopy rand (c.sealPublic secret) (keyAad luna.lunaId protection version user)
    (key ++ dedupKey) = sealed at hpos ⊢
  have hopen : c.openCopy secret (keyAad luna.lunaId protection version user) sealed =
      some (key ++ dedupKey) := by
    rw [← hsealed]
    exact c.openCopy_sealCopy ..
  generalize hsign : c.sign luna.seed (signedBytes "key-copy"
    (keyCopyMessage (keyAad luna.lunaId protection version user) sealed)) = signature
  have hsig : signature.val.length = sigLen := signature.property
  have hlen : (sealed ++ signature.val).length - sigLen = sealed.length := by
    rw [length_append, hsig, Nat.add_sub_cancel]
  have hlong : ¬ (sealed ++ signature.val).length ≤ sigLen := by
    omega
  unfold openKey
  simp only [hlen, take_left, drop_left, if_neg hlong, Crypto.toFixed_val]
  rw [← hsign, c.verify_sign, if_pos rfl, hopen]
  simp only [take_left' hkey, drop_left' hkey, toFixed, hkey, hdedup, dif_pos]

/-! ### The keys of a backup -/

theorem Db.mem_listBackupKeys :
    key ∈ db.listBackupKeys protection ↔ ∃ version, db.backupKeys.get? (protection, version) = some key := by
  simp only [listBackupKeys, mem_insertionSort, mem_map, Prod.exists, mem_select, decide_eq_true_eq]
  constructor
  · rintro ⟨p, version, key, ⟨hget, rfl⟩, rfl⟩
    exact ⟨version, hget⟩
  · rintro ⟨version, hget⟩
    exact ⟨protection, version, key, ⟨hget, rfl⟩, rfl⟩

theorem Db.latestBackupKey_some
    (h : db.latestBackupKey protection = some key) :
    ∃ version, db.backupKeys.get? (protection, version) = some key :=
  mem_listBackupKeys.mp (mem_of_getLast? h)

/-- `ensure_key` gives the latest version if its readers are as before and no rotation is asked for; else it
makes a version that was not there, with its readers. -/
theorem ensureKey_ok {db' : Db} {recipients : List String} {now : ℤ} {newKey newDedup : Bytes32}
    (h : ensureKey db protection recipients now newKey newDedup = .ok (key, db')) :
    (db' = db ∧ db.latestBackupKey protection = some key ∧
      db.readers.get? (protection, key.version) = some (readersOf db recipients) ∧ protection ∉ db.rotate) ∨
    (db.backupKeys.get? (protection, key.version) = none ∧
      key.version = ((db.latestBackupKey protection).map BackupKey.version).getD 0 + 1 ∧
      db' = { db with
        backupKeys := db.backupKeys.put (protection, key.version) key
        readers := db.readers.put (protection, key.version) (readersOf db recipients)
        rotate := db.rotate.erase protection }) := by
  have hcreate : ∀ k, ensureKey.create db protection (readersOf db recipients) k = .ok (key, db') →
      k = key ∧ db.backupKeys.get? (protection, key.version) = none ∧
      db' = { db with
        backupKeys := db.backupKeys.put (protection, key.version) key
        readers := db.readers.put (protection, key.version) (readersOf db recipients)
        rotate := db.rotate.erase protection } := by
    intro k hk
    unfold ensureKey.create Db.insertBackupKey at hk
    cases hget : db.backupKeys.get? (protection, k.version) with
    | some _ => simp [hget, bind, Except.bind] at hk
    | none =>
      simp only [hget, bind, Except.bind, pure, Except.pure, ok.injEq] at hk
      obtain ⟨rfl, rfl⟩ := hk
      exact ⟨rfl, hget, rfl⟩
  unfold ensureKey at h
  dsimp only at h
  split at h
  · rename_i k hlatest
    split at h
    · rename_i hsame
      obtain ⟨rfl, rfl⟩ := Prod.mk.inj (ok.inj h)
      rw [hlatest] at hsame
      exact .inl ⟨rfl, hlatest, hsame.1, hsame.2⟩
    · obtain ⟨rfl, hnone, hdb'⟩ := hcreate _ h
      exact .inr ⟨hnone, by rw [hlatest]; rfl, hdb'⟩
  · rename_i hlatest
    obtain ⟨rfl, hnone, hdb'⟩ := hcreate _ h
    exact .inr ⟨hnone, by rw [hlatest]; rfl, hdb'⟩

/-- What a re-seal that has something to write has read. -/
theorem readReseal_ok {user : String} {rand : ℕ → Bytes} {r : Reseal}
    (h : readReseal c j db user rand = .ok (some (.inr r))) :
    ∃ keys luna, ∃ reader : SealPublic, db.reseal.get? user = some r.pending ∧
      db.userKeys.get? user = some keys ∧ keys.sealPublic = reader.val ∧ db.identity = some luna ∧
      sealCopies c db luna user reader rand (readerVersions db user) = .ok (r.copies, []) := by
  unfold readReseal at h
  cases hpending : db.reseal.get? user with
  | none => simp [hpending, pure, Except.pure] at h
  | some pending =>
  cases hkeys : db.userKeys.get? user with
  | none => simp [hpending, hkeys, throw, throwThe] at h
  | some keys =>
  cases hreader : toFixed sealPublicLen keys.sealPublic with
  | none => simp [hpending, hkeys, hreader, throw, throwThe] at h
  | some reader =>
  cases hluna : db.identity with
  | none => simp [hpending, hkeys, hreader, hluna, throw, throwThe] at h
  | some luna =>
  cases hcopies : sealCopies c db luna user reader rand (readerVersions db user) with
  | error e => simp [hpending, hkeys, hreader, hluna, hcopies, bind, Except.bind] at h
  | ok sealed =>
    obtain ⟨copies, missing⟩ := sealed
    simp only [hpending, hkeys, hreader, hluna, hcopies, bind, Except.bind] at h
    split at h
    · simp [pure, Except.pure] at h
    rename_i hmissing
    cases hlist : userListRecord c j luna db with
    | error e => simp [hlist] at h
    | ok list =>
      simp only [hlist, pure, Except.pure, ok.injEq, Option.some.injEq, Sum.inr.injEq] at h
      rw [not_not.mp hmissing] at hcopies
      subst h
      exact ⟨keys, luna, reader, rfl, rfl, (toFixed_eq_some hreader).symm, rfl, hcopies⟩

/-! ### Getting ready -/

theorem startRun_ok {db' : Db} {id : Id} {scope : Bytes} {now : ℤ}
    (h : db.startRun id protection scope now = .ok db') :
    db.runs.get? id = none ∧ db' = { db with runs := db.runs.put id ⟨protection, scope, now, 0⟩ } := by
  unfold Db.startRun at h
  split at h
  · cases h
  · rename_i hnone
    exact ⟨hnone, (ok.inj h).symm⟩

/-- The run row may be opened; what a run goes on with is read off the key. -/
theorem openRun_inv (i : Input) (protection : String) (row : Protection) (luna : Identity) (key : BackupKey)
    (now : ℤ) (db : Db) :
    (openRun c j i protection row luna key now db).2 =
        { db with runs := (openRun c j i protection row luna key now db).2.runs } ∧
      ∀ ctx, (openRun c j i protection row luna key now db).1 = .ok ctx →
        ctx.protectionId = protection ∧ ctx.keyVersion = key.version ∧ ctx.identity = luna ∧
        key.key = ctx.keyBytes.val ∧ key.dedupKey = ctx.dedupKey.val ∧
        ctx.scopeId = scopeIdOf c ctx.dedupKey ∧ ctx.scope = scopeName ctx.scopeId := by
  unfold openRun
  dsimp only
  split
  · rename_i keyBytes dedupKey hkey hdedup
    split
    · exact ⟨rfl, fun ctx hctx => (nomatch hctx)⟩
    · rename_i db' hdb'
      refine ⟨by rw [(startRun_ok hdb').2], fun ctx hctx => ?_⟩
      obtain rfl := ok.inj hctx
      exact ⟨rfl, rfl, rfl, (toFixed_eq_some hkey).symm, (toFixed_eq_some hdedup).symm, rfl, rfl⟩
  · exact ⟨rfl, fun ctx hctx => (nomatch hctx)⟩

/-- What the locked read at the start of a run does: it fails and changes nothing, or the key is made sure of
and the run row may be opened. A version is published exactly if it was not the latest before. -/
theorem prepare_inv (protection : String) (now : ℤ) (i : Input) (db : Db) :
    ((prepare c j protection now i db).2 = db ∧ ∃ e, (prepare c j protection now i db).1 = .error e) ∨
    ∃ row luna key db', db.protections.get? protection = some row ∧ db.identity = some luna ∧
      ensureKey db protection (runRecipients db row) now (i.key 0) (i.key 1) = .ok (key, db') ∧
      (prepare c j protection now i db).2 = { db' with runs := (prepare c j protection now i db).2.runs } ∧
      ∀ ctx publish, (prepare c j protection now i db).1 = .ok (ctx, publish) →
        (ctx.protectionId = protection ∧ ctx.keyVersion = key.version ∧ ctx.identity = luna ∧
          key.key = ctx.keyBytes.val ∧ key.dedupKey = ctx.dedupKey.val ∧
          ctx.scopeId = scopeIdOf c ctx.dedupKey ∧ ctx.scope = scopeName ctx.scopeId) ∧
        publish = if (db.latestBackupKey protection).map BackupKey.version = some key.version then none
          else some ⟨runRecipients db row, userPublics db, key⟩ := by
  unfold prepare
  split
  · exact .inl ⟨rfl, _, rfl⟩
  rename_i row hrow
  split
  · exact .inl ⟨rfl, _, rfl⟩
  rename_i luna hluna
  dsimp only
  split
  · exact .inl ⟨rfl, _, rfl⟩
  split
  · exact .inl ⟨rfl, _, rfl⟩
  rename_i key db' hkey
  obtain ⟨hdb, hctx⟩ := openRun_inv (c := c) (j := j) i protection row luna key now db'
  refine .inr ⟨row, luna, key, db', hrow, hluna, hkey, ?_⟩
  split
  · rename_i ctx db'' heq
    rw [heq] at hdb hctx
    refine ⟨hdb, fun ctx' publish hok => ?_⟩
    obtain ⟨rfl, rfl⟩ := Prod.mk.inj (ok.inj hok)
    exact ⟨hctx ctx rfl, rfl⟩
  · rename_i e db'' heq
    rw [heq] at hdb
    exact ⟨hdb, fun ctx publish hok => (by cases hok)⟩

/-! ### Sections that leave them alone -/

/-- The sections of the copying part of a run. -/
def Label.Copying : Label → Prop
  | .getPack _ | .draw | .drawSnapshot | .lastCopy _ | .findChunk .. | .insertPack _ | .putPack _
  | .insertChunks _ | .putRecord (.snapshot _) | .commitSnapshot _ => True
  | _ => False

/-- Packs, index, links and snapshots may change, and snapshot records; a new snapshot is one of the run's
own version. -/
structure KeysAside (ctx : RunContext) (s t : State) : Prop where
  db : t.db = { s.db with packs := t.db.packs, chunks := t.db.chunks, links := t.db.links,
                          snapshots := t.db.snapshots }
  slots : t.slots = s.slots
  records : ∀ name, (∀ id, name ≠ .snapshot id) → t.store.records.get? name = s.store.records.get? name
  snapshots : ∀ id snap, t.db.snapshots.get? id = some snap → s.db.snapshots.get? id = some snap ∨
    (snap.protectionId = ctx.protectionId ∧ snap.keyVersion = ctx.keyVersion % 2 ^ 32)

variable {ctx : RunContext}

theorem KeysAside.refl (s : State) : KeysAside ctx s s :=
  ⟨rfl, rfl, fun _ _ => rfl, fun _ _ h => .inl h⟩

theorem KeysAside.trans {u : State} (h : KeysAside ctx s t) (h' : KeysAside ctx t u) : KeysAside ctx s u := by
  refine ⟨?_, h'.slots.trans h.slots, fun name hname => ?_, fun id snap hsnap => ?_⟩
  · rw [h'.db, h.db]
  · rw [h'.records name hname, h.records name hname]
  · rcases h'.snapshots id snap hsnap with hold | hnew
    · exact h.snapshots id snap hold
    · exact .inr hnew

/-- What a section of the copying part does. -/
def Copies (ctx : RunContext) (l : Label) (s t : State) : Prop := l.Copying ∧ KeysAside ctx s t

theorem copies_of_read {l : Label} (h : l.Copying) (s : State) : Copies ctx l s s := ⟨h, KeysAside.refl s⟩

theorem insertPack_only (pack : SealedPack) (scope : Bytes) (runId : Id) (now : ℤ) :
    (insertPack pack scope runId now).Only (Copies ctx) := by
  refine Prog.only_tryAct fun i s => ?_
  split
  · rename_i db hdb
    obtain ⟨-, hdb, -⟩ := Db.insertSizedPack_ok hdb
    refine ⟨trivial, by rw [hdb], rfl, fun _ _ => rfl, fun id snap hsnap => .inl ?_⟩
    rwa [hdb] at hsnap
  · exact ⟨trivial, KeysAside.refl s⟩

theorem putPack_only (id : Bytes32) (bytes : Bytes) : (putPack id bytes).Only (Copies ctx) := by
  refine Prog.only_act fun i s => ?_
  cases i.store with
  | some e => exact ⟨trivial, KeysAside.refl s⟩
  | none => exact ⟨trivial, rfl, rfl, fun _ _ => rfl, fun _ _ h => .inl h⟩

theorem flush_only (now : ℤ) (st : CopyState) : (flush c ctx now st).Only (Copies ctx) := by
  unfold flush
  split
  · trivial
  refine (only_sealPack (copies_of_read trivial) _ _).bind fun pack => ?_
  refine (insertPack_only pack _ _ now).bind fun _ => (putPack_only _ _).bind fun sent => ?_
  rcases sent with e | ⟨⟩
  · trivial
  · refine Prog.Only.bind (only_write fun s => ?_) fun _ => trivial
    rw [Db.insertChunks_eq]
    exact ⟨trivial, rfl, rfl, fun _ _ => rfl, fun _ _ h => .inl h⟩

theorem chunk_only (now : ℤ) (plain : Bytes) (st : CopyState) :
    (chunk c ctx now plain st).Only (Copies ctx) := by
  unfold chunk
  dsimp only
  split
  · trivial
  refine Prog.Only.bind (only_read (copies_of_read trivial)) fun found => ?_
  cases found with
  | some place => trivial
  | none =>
    refine (only_orPanic _).bind fun ⟨b, e⟩ => ?_
    split
    · exact (flush_only now _).bind fun _ => trivial
    · trivial

theorem copyChunks_only (now : ℤ) (chunks : List Bytes) (st : CopyState) :
    (copyChunks c ctx now chunks st).Only (Copies ctx) := by
  induction chunks generalizing st with
  | nil => trivial
  | cons plain chunks ih =>
    exact (chunk_only now plain st).bind fun r => (ih r.2).bind fun _ => trivial

theorem copyFiles_only (now : ℤ) (files : List SourceFile) (st : CopyState) :
    (copyFiles c ctx now files st).Only (Copies ctx) := by
  induction files generalizing st with
  | nil => trivial
  | cons file files ih =>
    refine (copyChunks_only now file.chunks st).bind fun r => ?_
    obtain ⟨ids, st1⟩ := r
    dsimp only
    split
    · trivial
    · exact (ih st1).bind fun _ => trivial

theorem commitSnapshotTx_ok {db' : Db} {id : Id} {snap : Snapshot} {packs : List Bytes32}
    (h : db.commitSnapshotTx id snap packs = .ok db') :
    db.snapshots.get? id = none ∧
      Db.linkPacks id packs { db with snapshots := db.snapshots.put id snap } = .ok db' := by
  unfold Db.commitSnapshotTx Db.insertCloudSnapshot at h
  cases hid : db.snapshots.get? id with
  | some _ => simp [hid, bind, Except.bind] at h
  | none => exact ⟨rfl, by simpa [hid, bind, Except.bind] using h⟩

theorem copyAndCommit_only (source : Source) (now : ℤ) :
    (copyAndCommit c j ctx source now).Only (Copies ctx) := by
  unfold copyAndCommit
  split
  · trivial
  refine (copyFiles_only now _ _).bind fun ⟨drafts, st⟩ => (flush_only now st).bind fun st => ?_
  refine (only_orError _).bind fun entries => ?_
  refine (only_buildTree (copies_of_read trivial) _ _ _).bind fun ⟨treeHash, e, pack⟩ => ?_
  refine (insertPack_only pack _ _ now).bind fun _ => (putPack_only _ _).bind fun sent => ?_
  rcases sent with e | ⟨⟩
  · trivial
  refine Prog.Only.bind (only_write fun s => ⟨trivial, rfl, rfl, fun _ _ => rfl, fun _ _ h => .inl h⟩) fun _ => ?_
  refine Prog.Only.bind (Prog.only_look (copies_of_read trivial)) fun id => ?_
  refine Prog.Only.bind (only_putRecord (copies_of_read trivial) fun s => ?_) fun _ => ?_
  · refine ⟨trivial, rfl, rfl, fun name hname => ?_, fun _ _ h => .inl h⟩
    exact get?_put_of_ne _ _ (hname id)
  · refine Prog.Only.bind (Prog.only_tryAct fun i s => ?_) fun _ => trivial
    split
    · rename_i db hdb
      obtain ⟨-, hlink⟩ := commitSnapshotTx_ok hdb
      obtain ⟨hdb, -⟩ := Db.linkPacks_ok hlink
      refine ⟨trivial, by rw [hdb], rfl, fun _ _ => rfl, fun id' snap hsnap => ?_⟩
      rw [hdb] at hsnap
      rcases get?_put_some.mp hsnap with ⟨-, rfl⟩ | ⟨-, hsnap⟩
      · exact .inr ⟨rfl, rfl⟩
      · exact .inl hsnap
    · exact ⟨trivial, KeysAside.refl s⟩

end LibreServ.Cloud
