import LibreServ.CloudCopies
import LibreServ.Runs

/-! The key versions of a protection over time: `ensure_key` for any recipients, marks for rotation, and changed recovery
keys, in any order. Random keys are given, and a dedup key that is drawn is new. -/

namespace LibreServ.Cloud

open List Option Table

/-! ### The steps -/

def markRotate (db : Db) (protection : String) : Db := { db with rotate := insert protection db.rotate }

/-- A user's recovery keys change, come or go. -/
def changeKeys (db : Db) (user : String) (keys : Option UserKeys) : Db :=
  match keys with
  | some keys => { db with userKeys := db.userKeys.put user keys }
  | none => { db with userKeys := db.userKeys.erase user }

/-- `made` has the users for whom a version was made. -/
structure Chain where
  db : Db
  made : Table (String × ℤ) (List String)

inductive ChainStep where
  | ensureKey (protection : String) (users : List String) (now : ℤ) (newKey newDedup : Bytes32)
  | markRotate (protection : String)
  | replaceReader (user : String) (sealPublic : Bytes)
  | changeKeys (user : String) (keys : Option UserKeys)

def Chain.step (c : Chain) : ChainStep → Option Chain
  | .ensureKey protection users now newKey newDedup =>
    match ensureKey c.db protection (recipientsOf users) now newKey newDedup with
    | .ok (key, db) => some ⟨db,
        if (c.db.backupKeys.get? (protection, key.version)).isSome then c.made
        else c.made.put (protection, key.version) (recipientsOf users)⟩
    | .error _ => none
  | .markRotate protection => some { c with db := markRotate c.db protection }
  | .replaceReader user sealPublic => some { c with db := replaceReader c.db user sealPublic }
  | .changeKeys user key => some { c with db := changeKeys c.db user key }

/-- The dedup key drawn is no other version's. -/
def Chain.Fresh (c : Chain) : ChainStep → Prop
  | .ensureKey _ _ _ _ newDedup => ∀ r ∈ c.db.backupKeys.rows, r.2.dedupKey ≠ newDedup.val
  | _ => True

instance (c : Chain) : ∀ a, Decidable (c.Fresh a)
  | .ensureKey _ _ _ _ newDedup => inferInstanceAs (Decidable (∀ r ∈ c.db.backupKeys.rows, r.2.dedupKey ≠ newDedup.val))
  | .markRotate _ | .replaceReader .. | .changeKeys .. => .isTrue trivial

/-! ### What should be so -/

/-- What is so of the versions of every protection. -/
structure Chain.Sound (c : Chain) : Prop where
  versions : ∀ p, ∃ n : ℕ, ∀ v, (∃ k, c.db.backupKeys.get? (p, v) = some k) ↔ 1 ≤ v ∧ v ≤ n
  own : ∀ p v k, c.db.backupKeys.get? (p, v) = some k → k.version = v
  saved : ∀ p v k, c.db.backupKeys.get? (p, v) = some k → ∃ readers, c.db.readers.get? (p, v) = some readers ∧
    c.made.get? (p, v) = some (readerIds readers)
  shared : ∀ p v w k k', v ≤ w → c.db.backupKeys.get? (p, v) = some k → c.db.backupKeys.get? (p, w) = some k' →
    k.dedupKey = k'.dedupKey → ∀ u, v ≤ u → u ≤ w → c.made.get? (p, u) = c.made.get? (p, v)

/-- A user sets a new phrase: the keys change, and so do the lists of readers. -/
def rephrase (db : Db) (change : String × UserKeys) : Db :=
  replaceReader (changeKeys db change.1 (some change.2)) change.1 change.2.sealPublic

/-- What `ensure_key` should do with `db`. -/
structure Ensured (db : Db) (protection : String) (recipients : List String) (key : BackupKey) (db' : Db) : Prop where
  newest : db'.backupKeys.get? (protection, key.version) = some key ∧
    ∀ v k, db'.backupKeys.get? (protection, v) = some k → v ≤ key.version
  saved : db'.readers.get? (protection, key.version) = some (readersOf db' recipients) ∧ readersOf db' recipients = readersOf db recipients
  same : ∀ latest, db.latestBackupKey protection = some latest →
    db.readers.get? (protection, latest.version) = some (readersOf db recipients) → protection ∉ db.rotate →
    key = latest ∧ db' = db
  next : protection ∈ db.rotate → protection ∉ db'.rotate ∧ db.backupKeys.get? (protection, key.version) = none ∧
    ∀ v, v ≠ key.version → db'.backupKeys.get? (protection, v) = db.backupKeys.get? (protection, v)
  again : ∀ (changes : List (String × UserKeys)) (now : ℤ) (newKey newDedup : Bytes32),
    ensureKey (changes.foldl rephrase db') protection recipients now newKey newDedup = .ok (key, changes.foldl rephrase db')

/-! ### The newest version -/

variable {protection : String} {db : Db}

theorem Db.latestBackupKey_none (h : db.latestBackupKey protection = none) (v : ℤ) :
    db.backupKeys.get? (protection, v) = none := by
  cases hget : db.backupKeys.get? (protection, v) with
  | none => rfl
  | some key =>
    have hmem := Db.mem_listBackupKeys.mpr ⟨v, hget⟩
    rw [getLast?_eq_none_iff.mp h] at hmem
    cases hmem

variable {key : BackupKey}

theorem Db.latestBackupKey_max
    (h : db.latestBackupKey protection = some key) : ∀ k ∈ db.listBackupKeys protection, k.version ≤ key.version := by
  have hsorted : (db.listBackupKeys protection).Pairwise fun a b => a.version ≤ b.version := by
    have : Std.Total fun a b : BackupKey => a.version ≤ b.version := ⟨fun a b => Int.le_total _ _⟩
    have : IsTrans BackupKey fun a b => a.version ≤ b.version := ⟨fun _ _ _ hab hbc => Int.le_trans hab hbc⟩
    exact pairwise_insertionSort _ _
  obtain ⟨before, hlist⟩ := getLast?_eq_some_iff.mp h
  rw [hlist, pairwise_append] at hsorted
  intro k hk
  rw [hlist] at hk
  rcases mem_append.mp hk with hk | hk
  · exact hsorted.2.2 k hk key (mem_singleton.mpr rfl)
  · rw [mem_singleton.mp hk]

theorem Db.latestBackupKey_eq
    (hown : ∀ v k, db.backupKeys.get? (protection, v) = some k → k.version = v)
    (hget : db.backupKeys.get? (protection, key.version) = some key)
    (hmax : ∀ v k, db.backupKeys.get? (protection, v) = some k → v ≤ key.version) : db.latestBackupKey protection = some key := by
  cases hlatest : db.latestBackupKey protection with
  | none =>
    rw [Db.latestBackupKey_none hlatest] at hget
    cases hget
  | some latest =>
    obtain ⟨v, hv⟩ := Db.latestBackupKey_some hlatest
    obtain rfl := hown v latest hv
    have hle := hmax latest.version latest hv
    have hge := Db.latestBackupKey_max hlatest key (Db.mem_listBackupKeys.mpr ⟨_, hget⟩)
    rw [show latest.version = key.version by omega, hget] at hv
    exact hv.symm

/-- The number of the newest version. -/
def latestVersion (db : Db) (protection : String) : ℤ := ((db.latestBackupKey protection).map BackupKey.version).getD 0

theorem Chain.Sound.latest {c : Chain} (h : c.Sound) (p : String) :
    (∀ v, (∃ k, c.db.backupKeys.get? (p, v) = some k) ↔ 1 ≤ v ∧ v ≤ latestVersion c.db p) ∧ 0 ≤ latestVersion c.db p ∧
      ∀ k, c.db.latestBackupKey p = some k → c.db.backupKeys.get? (p, k.version) = some k := by
  obtain ⟨n, hn⟩ := h.versions p
  cases hlatest : c.db.latestBackupKey p with
  | none =>
    have hzero : latestVersion c.db p = 0 := by rw [latestVersion, hlatest]; rfl
    rw [hzero]
    refine ⟨fun v => ⟨?_, ?_⟩, Int.le_refl 0, fun k hk => nomatch hk⟩
    · rintro ⟨k, hk⟩
      rw [Db.latestBackupKey_none hlatest] at hk
      cases hk
    · rintro ⟨hlow, hhigh⟩
      omega
  | some key =>
    have hversion : latestVersion c.db p = key.version := by rw [latestVersion, hlatest]; rfl
    obtain ⟨v, hget⟩ := Db.latestBackupKey_some hlatest
    obtain rfl := h.own p v key hget
    obtain ⟨hlow, hhigh⟩ := (hn key.version).mp ⟨key, hget⟩
    obtain ⟨last, hlast⟩ := (hn n).mpr ⟨by omega, Int.le_refl _⟩
    have hmax := Db.latestBackupKey_max hlatest last (Db.mem_listBackupKeys.mpr ⟨n, hlast⟩)
    rw [h.own p n last hlast] at hmax
    have heq : key.version = n := by omega
    rw [hversion, heq]
    refine ⟨hn, by omega, fun k hk => ?_⟩
    obtain rfl : key = k := some.inj hk
    exact hget

/-! ### One call of `ensure_key` -/

/-- A new version with its readers; the mark is gone. -/
def addVersion (db : Db) (protection : String) (recipients : List String) (key : BackupKey) : Db :=
  { db with
    backupKeys := db.backupKeys.put (protection, key.version) key
    readers := db.readers.put (protection, key.version) (readersOf db recipients)
    rotate := db.rotate.erase protection }

/-- The newest version was made for these readers, and no rotation is asked for. -/
def Unchanged (db : Db) (protection : String) (recipients : List String) (key : BackupKey) : Prop :=
  db.latestBackupKey protection = some key ∧ db.readers.get? (protection, key.version) = some (readersOf db recipients) ∧
    protection ∉ db.rotate

variable {recipients : List String}

theorem ensureKey_create
    (hfree : db.backupKeys.get? (protection, key.version) = none) :
    ensureKey.create db protection (readersOf db recipients) key = .ok (key, addVersion db protection recipients key) := by
  simp only [ensureKey.create, Db.insertBackupKey, hfree, bind, Except.bind, pure, Except.pure, addVersion]

theorem ensureKey_unchanged
    (h : Unchanged db protection recipients key) (now : ℤ) (newKey newDedup : Bytes32) :
    ensureKey db protection recipients now newKey newDedup = .ok (key, db) := by
  obtain ⟨hlatest, hreaders, hrotate⟩ := h
  simp only [ensureKey, hlatest, bind_some, hreaders, hrotate, not_false_eq_true, and_self, if_true]

/-- Else there is a next version; its dedup key is new, or that of the last version for the same people. -/
theorem ensureKey_changed
    (hfree : db.backupKeys.get? (protection, latestVersion db protection + 1) = none)
    (hchanged : ∀ key, ¬ Unchanged db protection recipients key) (now : ℤ) (newKey newDedup : Bytes32) :
    ∃ key : BackupKey, key.version = latestVersion db protection + 1 ∧
      ensureKey db protection recipients now newKey newDedup = .ok (key, addVersion db protection recipients key) ∧
      (key.dedupKey = newDedup.val ∨ ∃ latest readers, db.latestBackupKey protection = some latest ∧
        db.readers.get? (protection, latest.version) = some readers ∧ readerIds readers = recipients ∧
        key.dedupKey = latest.dedupKey) := by
  cases hlatest : db.latestBackupKey protection with
  | none =>
    have hversion : latestVersion db protection + 1 = 1 := by rw [latestVersion, hlatest]; rfl
    rw [hversion] at hfree ⊢
    refine ⟨⟨1, newKey.val, newDedup.val, now⟩, rfl, ?_, .inl rfl⟩
    simp only [ensureKey, hlatest]
    exact ensureKey_create hfree
  | some latest =>
    have hversion : latestVersion db protection = latest.version := by rw [latestVersion, hlatest]; rfl
    rw [hversion] at hfree ⊢
    have hnot : ¬ (db.readers.get? (protection, latest.version) = some (readersOf db recipients) ∧ protection ∉ db.rotate) :=
      fun hsame => hchanged latest ⟨hlatest, hsame⟩
    simp only [ensureKey, hlatest, bind_some, if_neg hnot]
    refine ⟨_, rfl, ensureKey_create hfree, ?_⟩
    split
    · next hkeep =>
        obtain ⟨readers, hreaders, hids⟩ := Option.any_eq_true .. |>.mp hkeep.2
        exact .inr ⟨latest, readers, rfl, hreaders, of_decide_eq_true hids, rfl⟩
    · exact .inl rfl

/-! ### Changed phrases -/

theorem readersOf_rephrase (db : Db) (change : String × UserKeys) (recipients : List String) :
    readersOf (rephrase db change) recipients =
      (readersOf db recipients).map fun r => if r.1 = change.1 then (r.1, change.2.sealPublic) else r := by
  rw [readersOf, readersOf, List.map_map]
  apply map_congr_left
  intro user _
  simp only [Function.comp_apply, rephrase, changeKeys, replaceReader, get?_put]
  by_cases huser : user = change.1
  · simp only [if_pos huser, map_some, getD_some]
  · simp only [if_neg huser]

theorem Unchanged.rephrase
    (h : Unchanged db protection recipients key) (change : String × UserKeys) :
    Unchanged (rephrase db change) protection recipients key := by
  obtain ⟨hlatest, hreaders, hrotate⟩ := h
  refine ⟨hlatest, ?_, hrotate⟩
  rw [readersOf_rephrase]
  show (db.readers.update _).get? _ = _
  rw [get?_update, hreaders, map_some]

theorem Unchanged.again
    (h : Unchanged db protection recipients key) (changes : List (String × UserKeys)) (now : ℤ) (newKey newDedup : Bytes32) :
    ensureKey (changes.foldl Cloud.rephrase db) protection recipients now newKey newDedup
      = .ok (key, changes.foldl Cloud.rephrase db) := by
  induction changes generalizing db with
  | nil => exact ensureKey_unchanged h now newKey newDedup
  | cons change changes ih => exact ih (h.rephrase change)

theorem readerIds_readersOf (db : Db) (recipients : List String) : readerIds (readersOf db recipients) = recipients := by
  rw [readerIds, readersOf, List.map_map]
  exact List.map_id recipients

theorem readerIds_replace (readers : List (String × Bytes)) (user : String) (sealPublic : Bytes) :
    readerIds (readers.map fun r => if r.1 = user then (r.1, sealPublic) else r) = readerIds readers := by
  rw [readerIds, List.map_map]
  apply map_congr_left
  intro r _
  simp only [Function.comp_apply]
  split
  · rfl
  · rfl

/-! ### Every step -/

namespace Chain

variable {c c' : Chain}

section

variable (h : c.Sound)

include h

/-- A new version, with the users it is made for. -/
theorem Sound.addVersion {p : String} {recipients : List String} {key : BackupKey} {newDedup : Bytes32}
    (hversion : key.version = latestVersion c.db p + 1)
    (hdedup : key.dedupKey = newDedup.val ∨ ∃ latest readers, c.db.latestBackupKey p = some latest ∧
      c.db.readers.get? (p, latest.version) = some readers ∧ readerIds readers = recipients ∧ key.dedupKey = latest.dedupKey)
    (hfresh : ∀ r ∈ c.db.backupKeys.rows, r.2.dedupKey ≠ newDedup.val) :
    Sound ⟨Cloud.addVersion c.db p recipients key, c.made.put (p, key.version) recipients⟩ := by
  obtain ⟨hversions, hpos, hget⟩ := h.latest p
  have hold : ∀ {q v k}, ((c.db.backupKeys.put (p, key.version) key).get? (q, v) = some k) →
      (q = p ∧ v = key.version ∧ key = k) ∨ ((q, v) ≠ (p, key.version) ∧ c.db.backupKeys.get? (q, v) = some k) := by
    intro q v k hk
    rw [get?_put] at hk
    split at hk
    · next heq =>
        obtain ⟨rfl, rfl⟩ := Prod.mk.inj heq
        exact .inl ⟨rfl, rfl, some.inj hk⟩
    · next hne => exact .inr ⟨hne, hk⟩
  have hmade : ∀ {q v}, (q, v) ≠ (p, key.version) →
      (c.made.put (p, key.version) recipients).get? (q, v) = c.made.get? (q, v) := fun hne => get?_put_of_ne _ _ hne
  have hself : (c.made.put (p, key.version) recipients).get? (p, key.version) = some recipients := get?_put_self ..
  refine ⟨fun q => ?_, fun q v k hk => ?_, fun q v k hk => ?_, fun q v w k k' hvw hk hk' heq u hvu huw => ?_⟩
  · by_cases hq : q = p
    · subst hq
      refine ⟨(latestVersion c.db q + 1).toNat, fun v => ?_⟩
      constructor
      · rintro ⟨k, hk⟩
        rcases hold hk with ⟨-, rfl, -⟩ | ⟨-, hkeep⟩
        · omega
        · have := (hversions v).mp ⟨k, hkeep⟩
          omega
      · rintro ⟨hlow, hhigh⟩
        by_cases hv : v = key.version
        · subst hv
          exact ⟨key, get?_put_self ..⟩
        · obtain ⟨k, hk⟩ := (hversions v).mpr ⟨hlow, by omega⟩
          refine ⟨k, (get?_put_of_ne _ _ fun heq => hv (Prod.mk.inj heq).2).trans hk⟩
    · obtain ⟨n, hn⟩ := h.versions q
      refine ⟨n, fun v => ?_⟩
      have hne : (q, v) ≠ (p, key.version) := fun heq => hq (Prod.mk.inj heq).1
      rw [← hn v]
      show (∃ k, (c.db.backupKeys.put (p, key.version) key).get? (q, v) = some k) ↔ _
      rw [get?_put_of_ne _ _ hne]
  · rcases hold hk with ⟨-, rfl, rfl⟩ | ⟨-, hkeep⟩
    · rfl
    · exact h.own q v k hkeep
  · rcases hold hk with ⟨rfl, rfl, -⟩ | ⟨hne, hkeep⟩
    · refine ⟨readersOf c.db recipients, get?_put_self .., ?_⟩
      rw [hself, readerIds_readersOf]
    · obtain ⟨readers, hreaders, hids⟩ := h.saved q v k hkeep
      exact ⟨readers, (get?_put_of_ne _ _ hne).trans hreaders, (hmade hne).trans hids⟩
  · rcases hold hk with ⟨rfl, rfl, rfl⟩ | ⟨hne, hkeep⟩
    · -- the first one is the new version, and it is the last
      have hw : w ≤ key.version := by
        rcases hold hk' with ⟨-, rfl, -⟩ | ⟨-, hkeep'⟩
        · exact Int.le_refl _
        · have := (hversions w).mp ⟨k', hkeep'⟩
          omega
      obtain rfl : u = key.version := by omega
      rfl
    · rcases hold hk' with ⟨rfl, rfl, rfl⟩ | ⟨hne', hkeep'⟩
      · rcases hdedup with hnew | ⟨latest, readers, hlatest, hreaders, hids, hsame⟩
        · exact absurd (heq.trans hnew) (hfresh ((q, v), k) (mem_rows.mpr hkeep))
        have hlast := hget latest hlatest
        have hlatestVersion : latestVersion c.db q = latest.version := by rw [latestVersion, hlatest]; rfl
        obtain ⟨readers', hreaders', hids'⟩ := h.saved q latest.version latest hlast
        obtain rfl : readers = readers' := some.inj (hreaders.symm.trans hreaders')
        have hbound := (hversions v).mp ⟨k, hkeep⟩
        have hall := h.shared q v latest.version k latest (by omega) hkeep hlast (heq.trans hsame)
        by_cases hu : u = key.version
        · subst hu
          rw [hself, hmade hne, ← hall latest.version (by omega) (Int.le_refl _), hids', hids]
        · rw [hmade fun heq => hu (Prod.mk.inj heq).2, hmade hne]
          exact hall u hvu (by omega)
      · have hbound : u ≠ key.version ∨ q ≠ p := by
          by_cases hq : q = p
          · subst hq
            have := (hversions w).mp ⟨k', hkeep'⟩
            left
            omega
          · exact .inr hq
        have hneu : (q, u) ≠ (p, key.version) := by
          intro heq
          obtain ⟨hq, hu⟩ := Prod.mk.inj heq
          exact hbound.elim (fun hn => hn hu) (fun hn => hn hq)
        rw [hmade hneu, hmade hne]
        exact h.shared q v w k k' hvw hkeep hkeep' heq u hvu huw

/-- A step that leaves the versions and the users of their lists. -/
theorem Sound.of_same {db : Db} (hkeys : db.backupKeys = c.db.backupKeys)
    (hreaders : ∀ k readers, c.db.readers.get? k = some readers → ∃ readers', db.readers.get? k = some readers' ∧
      readerIds readers' = readerIds readers) : Sound { c with db := db } := by
  refine ⟨fun p => ?_, fun p v k hk => ?_, fun p v k hk => ?_, fun p v w k k' hvw hk hk' => ?_⟩
  · rw [hkeys]
    exact h.versions p
  · exact h.own p v k (hkeys ▸ hk)
  · obtain ⟨readers, hget, hids⟩ := h.saved p v k (hkeys ▸ hk)
    obtain ⟨readers', hget', hsame⟩ := hreaders _ _ hget
    exact ⟨readers', hget', hids.trans (congrArg some hsame.symm)⟩
  · exact h.shared p v w k k' hvw (hkeys ▸ hk) (hkeys ▸ hk')

theorem Sound.free (p : String) : c.db.backupKeys.get? (p, latestVersion c.db p + 1) = none := by
  cases hget : c.db.backupKeys.get? (p, latestVersion c.db p + 1) with
  | none => rfl
  | some k =>
    have := ((h.latest p).1 _).mp ⟨k, hget⟩
    omega

theorem Sound.step {a : ChainStep} (hfresh : c.Fresh a) (hs : c.step a = some c') : c'.Sound := by
  cases a with
  | ensureKey p users now newKey newDedup =>
    by_cases hsame : ∃ key, Unchanged c.db p (recipientsOf users) key
    · obtain ⟨key, hkey⟩ := hsame
      have hget := (h.latest p).2.2 key hkey.1
      simp only [Chain.step, ensureKey_unchanged hkey, hget, isSome_some, some.injEq] at hs
      subst hs
      exact h
    · rw [not_exists] at hsame
      obtain ⟨key, hversion, heq, hdedup⟩ := ensureKey_changed (h.free p) hsame now newKey newDedup
      have hnone : c.db.backupKeys.get? (p, key.version) = none := hversion ▸ h.free p
      simp only [Chain.step, heq, hnone, isSome_none, Bool.false_eq_true, some.injEq] at hs
      subst hs
      exact h.addVersion hversion hdedup hfresh
  | markRotate p =>
    cases hs
    exact h.of_same rfl fun k readers hget => ⟨readers, hget, rfl⟩
  | replaceReader user sealPublic =>
    cases hs
    refine h.of_same rfl fun k readers hget => ⟨_, ?_, readerIds_replace readers user sealPublic⟩
    show (c.db.readers.update _).get? k = _
    rw [get?_update, hget, map_some]
  | changeKeys user keys =>
    cases hs
    cases keys with
    | none | some keys => exact h.of_same rfl fun k readers hget => ⟨readers, hget, rfl⟩

theorem Sound.ensured (p : String) (recipients : List String) (now : ℤ) (newKey newDedup : Bytes32) :
    ∃ key db, ensureKey c.db p recipients now newKey newDedup = .ok (key, db) ∧ Ensured c.db p recipients key db := by
  obtain ⟨hversions, -, hget⟩ := h.latest p
  by_cases hsame : ∃ key, Unchanged c.db p recipients key
  · obtain ⟨key, hkey⟩ := hsame
    have hlast : latestVersion c.db p = key.version := by rw [latestVersion, hkey.1]; rfl
    refine ⟨key, c.db, ensureKey_unchanged hkey now newKey newDedup, ⟨hget key hkey.1, fun v k hk => ?_⟩, ⟨hkey.2.1, rfl⟩,
      fun latest hlatest _ _ => ⟨some.inj (hkey.1.symm.trans hlatest), rfl⟩, fun hrotate => absurd hrotate hkey.2.2,
      hkey.again⟩
    exact hlast ▸ ((hversions v).mp ⟨k, hk⟩).2
  · rw [not_exists] at hsame
    obtain ⟨key, hversion, heq, -⟩ := ensureKey_changed (h.free p) hsame now newKey newDedup
    have hself : (Cloud.addVersion c.db p recipients key).backupKeys.get? (p, key.version) = some key := get?_put_self ..
    have hold : ∀ {v k}, (Cloud.addVersion c.db p recipients key).backupKeys.get? (p, v) = some k →
        (v = key.version ∧ k = key) ∨ c.db.backupKeys.get? (p, v) = some k := by
      intro v k hk
      simp only [Cloud.addVersion, get?_put] at hk
      split at hk
      · next hkeys => exact .inl ⟨(Prod.mk.inj hkeys).2, (some.inj hk).symm⟩
      · exact .inr hk
    have hmax : ∀ v k, (Cloud.addVersion c.db p recipients key).backupKeys.get? (p, v) = some k → v ≤ key.version := by
      intro v k hk
      rcases hold hk with ⟨rfl, -⟩ | hk
      · exact Int.le_refl _
      · have := (hversions v).mp ⟨k, hk⟩
        omega
    have hown : ∀ v k, (Cloud.addVersion c.db p recipients key).backupKeys.get? (p, v) = some k → k.version = v := by
      intro v k hk
      rcases hold hk with ⟨rfl, rfl⟩ | hk
      · rfl
      · exact h.own p v k hk
    have hmark : p ∉ (Cloud.addVersion c.db p recipients key).rotate := Finset.notMem_erase p _
    refine ⟨key, _, heq, ⟨hself, hmax⟩, ⟨get?_put_self .., rfl⟩, fun latest hlatest hreaders hrotate => ?_, fun _ => ?_, ?_⟩
    · exact absurd ⟨hlatest, hreaders, hrotate⟩ (hsame latest)
    · refine ⟨hmark, hversion ▸ h.free p, fun v hv => ?_⟩
      exact get?_put_of_ne _ _ fun hkeys => hv (Prod.mk.inj hkeys).2
    · exact Unchanged.again ⟨Db.latestBackupKey_eq hown hself hmax, get?_put_self .., hmark⟩

end

/-- The chain of versions is sound after every sequence of steps, and the next `ensure_key` does what it should. -/
theorem sound_of_run {acts : List ChainStep} (hstart : c.db.backupKeys = .empty)
    (hfresh : Runs.Meets Chain.step Chain.Fresh acts c) (hrun : Runs.run Chain.step acts c = some c') :
    c'.Sound ∧ ∀ p users now newKey newDedup, ∃ key db, ensureKey c'.db p (recipientsOf users) now newKey newDedup = .ok (key, db) ∧
      Ensured c'.db p (recipientsOf users) key db := by
  have hempty : ∀ p v, c.db.backupKeys.get? (p, v) = none := fun p v => hstart ▸ rfl
  have hinit : c.Sound := by
    refine ⟨fun p => ⟨0, fun v => ⟨?_, fun hv => by omega⟩⟩, fun p v k hk => ?_, fun p v k hk => ?_, fun p v w k k' _ hk => ?_⟩
    · rintro ⟨k, hk⟩
      rw [hempty] at hk
      cases hk
    all_goals
      rw [hempty] at hk
      cases hk
  have hsound : c'.Sound := Runs.keeps (fun _ _ _ h ha hs => Sound.step h ha hs) hinit hfresh hrun
  exact ⟨hsound, fun p users now newKey newDedup => hsound.ensured p _ now newKey newDedup⟩

/-- Two readers, a changed phrase, a rotation, and a reader who leaves. -/
def chainSteps : List ChainStep :=
  [.ensureKey "p" ["b", "a", "b"] 1 (Fixed.fill 32 1) (Fixed.fill 32 11), .changeKeys "a" (some ⟨[7], [], []⟩),
    .replaceReader "a" [7], .ensureKey "p" ["a", "b"] 2 (Fixed.fill 32 2) (Fixed.fill 32 12), .markRotate "p",
    .ensureKey "p" ["a", "b"] 3 (Fixed.fill 32 3) (Fixed.fill 32 13),
    .ensureKey "p" ["a"] 4 (Fixed.fill 32 4) (Fixed.fill 32 14)]

/-- Versions one and two share a dedup key, and version three has its own. -/
theorem chainSteps_sound : ∃ c : Chain, Runs.run Chain.step chainSteps ⟨.empty, .empty⟩ = some c ∧ c.Sound ∧
    (c.db.listBackupKeys "p").map (fun k => (k.version, k.dedupKey.head?)) = [(1, some 11), (2, some 11), (3, some 14)] := by
  have hrun : ∃ c : Chain, Runs.run Chain.step chainSteps ⟨.empty, .empty⟩ = some c ∧
      (c.db.listBackupKeys "p").map (fun k => (k.version, k.dedupKey.head?)) = [(1, some 11), (2, some 11), (3, some 14)] :=
    ⟨_, rfl, by decide +kernel⟩
  obtain ⟨c, hc, hkeys⟩ := hrun
  exact ⟨c, hc, (sound_of_run rfl (by decide +kernel) hc).1, hkeys⟩

end Chain

end LibreServ.Cloud
