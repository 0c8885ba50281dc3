import LibreServ.CloudCopies

/-! Who can open a committed snapshot. A run publishes a key version, the copies first and the signed list of
recipients last, only if the version was not the latest before: a version whose publication was cut short is
never published again, and the next run commits snapshots under it. As long as no run keeps such a version,
every snapshot of the backup can be opened by every reader of its version. -/

namespace LibreServ.Cloud

open Sections List Option Table Except

variable {luna : Identity} {readers : List (String × Bytes)} {key : BackupKey}

/-! ### Published versions -/

/-- The store has a copy of the version's key for the user, and whoever has the secret of the user's sealing
key opens it. -/
def Opens (c : Crypto) (s : State) (protection : String) (version : ℤ) (user : String) : Prop :=
  ∃ luna key keys copy, s.db.identity = some luna ∧ s.db.backupKeys.get? (protection, version) = some key ∧
    s.db.userKeys.get? user = some keys ∧
    s.store.records.get? (.key protection version user) = some (.keyCopy copy) ∧
    ∀ secret, keys.sealPublic = (c.sealPublic secret).val → ∃ k d : Bytes32, k.val = key.key ∧
      d.val = key.dedupKey ∧
      openKey c copy secret (c.sigPublic luna.seed) luna.lunaId protection version user = .ok (k, d)

/-- Every saved reader of the version has such a copy, and the store has the signed list of exactly these
readers. -/
structure Published (c : Crypto) (j : Json) (s : State) (protection : String) (version : ℤ) : Prop where
  key : s.db.backupKeys.get? (protection, version) ≠ none
  readers : ∃ readers, s.db.readers.get? (protection, version) = some readers ∧
    (∀ user ∈ readerIds readers, Opens c s protection version user) ∧
    ∃ luna record, s.db.identity = some luna ∧
      s.store.records.get? (.recipients protection version) = some record ∧
      verifyRecipients c j record (c.sigPublic luna.seed) luna.lunaId protection version =
        some (readerIds readers)

/-- Every version with a signed list is published, and so is the version of every snapshot of the backup. -/
structure KeysKept (c : Crypto) (j : Json) (protection : String) (s : State) : Prop where
  versions : ∀ backup version key, s.db.backupKeys.get? (backup, version) = some key → key.version = version
  natural : ∀ version key, s.db.backupKeys.get? (protection, version) = some key → 0 ≤ version
  listed : ∀ version, s.store.records.get? (.recipients protection version) ≠ none →
    Published c j s protection version
  snapshots : ∀ id snap, s.db.snapshots.get? id = some snap → snap.protectionId = protection →
    Published c j s protection snap.keyVersion

variable {c : Crypto} {j : Json} {s t : State} {protection : String}

/-! ### Sections that leave keys and copies alone -/

structure SameCopies (s t : State) : Prop where
  identity : t.db.identity = s.db.identity
  keys : t.db.backupKeys = s.db.backupKeys
  readers : t.db.readers = s.db.readers
  userKeys : t.db.userKeys = s.db.userKeys
  copies : ∀ backup version user,
    t.store.records.get? (.key backup version user) = s.store.records.get? (.key backup version user)
  recipients : ∀ backup version,
    t.store.records.get? (.recipients backup version) = s.store.records.get? (.recipients backup version)

theorem SameCopies.opens (h : SameCopies s t) {version : ℤ} {user : String}
    (hopen : Opens c s protection version user) : Opens c t protection version user := by
  unfold Opens at hopen ⊢
  rwa [h.identity, h.keys, h.userKeys, h.copies]

theorem SameCopies.published (h : SameCopies s t) {version : ℤ} (hp : Published c j s protection version) :
    Published c j t protection version := by
  obtain ⟨hkey, readers, hreaders, hopen, hlist⟩ := hp
  refine ⟨by rwa [h.keys], readers, by rwa [h.readers], fun user huser => h.opens (hopen user huser), ?_⟩
  rwa [h.identity, h.recipients]

theorem SameCopies.keysKept (h : SameCopies s t) (hs : KeysKept c j protection s)
    (hsnap : ∀ id snap, t.db.snapshots.get? id = some snap → s.db.snapshots.get? id = some snap ∨
      (snap.protectionId = protection → Published c j s protection snap.keyVersion)) :
    KeysKept c j protection t := by
  refine ⟨?_, ?_, fun version hlist => ?_, fun id snap hid hp => ?_⟩
  · rw [h.keys]
    exact hs.versions
  · rw [h.keys]
    exact hs.natural
  · rw [h.recipients] at hlist
    exact h.published (hs.listed version hlist)
  · rcases hsnap id snap hid with hold | hnew
    · exact h.published (hs.snapshots id snap hold hp)
    · exact h.published (hnew hp)

theorem SameCopies.refl (s : State) : SameCopies s s := ⟨rfl, rfl, rfl, rfl, fun _ _ _ => rfl, fun _ _ => rfl⟩

theorem KeysAside.sameCopies {ctx : RunContext} (h : KeysAside ctx s t) : SameCopies s t := by
  refine ⟨?_, ?_, ?_, ?_, fun _ _ _ => h.records _ fun _ => (nomatch ·), fun _ _ => h.records _ fun _ => (nomatch ·)⟩
  · rw [h.db]
  · rw [h.db]
  · rw [h.db]
  · rw [h.db]

/-! ### Writing copies -/

/-- A copy of a version's key that is sealed to the user's sealing key, under its own name. -/
def GoodCopy (c : Crypto) (db : Db) (name : RecordName) (copy : Bytes) : Prop :=
  ∃ backup version user luna key keys, ∃ reader : SealPublic, ∃ rand, name = .key backup version user ∧
    db.identity = some luna ∧ db.backupKeys.get? (backup, version) = some key ∧
    db.userKeys.get? user = some keys ∧ keys.sealPublic = reader.val ∧
    sealKeyCopy c luna.seed rand reader (keyAad luna.lunaId backup version user) key.key key.dedupKey = .ok copy

def State.putCopy (s : State) (name : RecordName) (copy : Bytes) : State :=
  { s with store.records := s.store.records.put name (.keyCopy copy) }

variable {name : RecordName} {copy : Bytes} {version : ℤ} {user : String}

theorem GoodCopy.opens (h : GoodCopy c s.db (.key protection version user) copy) :
    Opens c (s.putCopy (.key protection version user) copy) protection version user := by
  obtain ⟨_, _, _, luna, key, keys, reader, rand, heq, hluna, hkey, hkeys, hreader, hcopy⟩ := h
  obtain ⟨rfl, rfl, rfl⟩ := RecordName.key.inj heq
  refine ⟨luna, key, keys, copy, hluna, hkey, hkeys, get?_put_self .., fun secret hsecret => ?_⟩
  obtain rfl : reader = c.sealPublic secret := Subtype.ext (hreader.symm.trans hsecret)
  exact openKey_sealKeyCopy hcopy

theorem Opens.putCopy (h : Opens c s protection version user) (hgood : GoodCopy c s.db name copy) :
    Opens c (s.putCopy name copy) protection version user := by
  by_cases hname : .key protection version user = name
  · subst hname
    exact hgood.opens
  · obtain ⟨luna, key, keys, old, hluna, hkey, hkeys, hold, hopen⟩ := h
    refine ⟨luna, key, keys, old, hluna, hkey, hkeys, ?_, hopen⟩
    exact (get?_put_of_ne _ _ hname).trans hold

theorem Published.putCopy (h : Published c j s protection version) (hgood : GoodCopy c s.db name copy) :
    Published c j (s.putCopy name copy) protection version := by
  obtain ⟨hkey, readers, hreaders, hopen, luna, record, hluna, hrecord, hverify⟩ := h
  refine ⟨hkey, readers, hreaders, fun user huser => (hopen user huser).putCopy hgood, luna, record, hluna, ?_,
    hverify⟩
  obtain ⟨_, _, _, _, _, _, _, _, rfl, -⟩ := hgood
  refine (get?_put_of_ne _ _ ?_).trans hrecord
  nofun

theorem KeysKept.putCopy (h : KeysKept c j protection s) (hgood : GoodCopy c s.db name copy) :
    KeysKept c j protection (s.putCopy name copy) := by
  refine ⟨h.versions, h.natural, fun version hlist => ?_, fun id snap hid hp => ?_⟩
  · refine (h.listed version fun hnone => hlist ?_).putCopy hgood
    obtain ⟨_, _, _, _, _, _, _, _, rfl, -⟩ := hgood
    refine (get?_put_of_ne _ _ ?_).trans hnone
    nofun
  · exact (h.snapshots id snap hid hp).putCopy hgood

/-! ### The parts of a run -/

/-- The version that `prepare` would keep. -/
def keptVersion (db : Db) (protection : String) : Option ℤ := do
  let row ← db.protections.get? protection
  let latest ← db.latestBackupKey protection
  if db.readers.get? (protection, latest.version) = some (readersOf db (runRecipients db row)) ∧
      protection ∉ db.rotate then some latest.version else none

/-- The signed list of a version that a run is about to keep is in the store, and versions are `u32`s. -/
def keepsPublished (l : Label) (s : State) : Bool :=
  match l with
  | .prepare protection =>
    (keptVersion s.db protection).all (fun version =>
      (s.store.records.get? (.recipients protection version)).isSome) &&
    ((s.db.latestBackupKey protection).map BackupKey.version).getD 0 + 1 < 2 ^ 32
  | _ => true

/-- Alone, the program keeps the keys, and may be cut anywhere. -/
abbrev Keeping (c : Crypto) (j : Json) (protection : String) {α : Type} (p : Job α) (s : State)
    (post : Except Fault α → State → Prop) : Prop :=
  p.Holds (fun l _ s => keepsPublished l s = true) (fun _ s => KeysKept c j protection s) s post

theorem keeping_putCopies {copies : List (RecordName × Bytes)} (h : KeysKept c j protection s)
    (hgood : ∀ r ∈ copies, GoodCopy c s.db r.1 r.2) :
    Keeping c j protection (putCopies copies) s fun _ t => KeysKept c j protection t ∧ t.db = s.db := by
  induction copies generalizing s with
  | nil => exact ⟨h, rfl⟩
  | cons r copies ih =>
    have hput := h.putCopy (hgood r mem_cons_self)
    refine Prog.Holds.bind (fun _ t => t = s.putCopy r.1 r.2) (holds_putRecord h rfl fun _ => ⟨h, rfl⟩) ?_
    rintro ⟨⟩ t rfl
    exact ih hput fun r' hr' => hgood r' (mem_cons_of_mem r hr')

/-- The copies a re-seal writes are good. -/
theorem sealCopies_good {db : Db} {user : String} {keys : UserKeys} {reader : SealPublic}
    {rand : ℕ → Bytes} {versions : List (String × ℤ)} {copies : List (RecordName × Bytes)}
    {missing : List (String × ℤ)} (hluna : db.identity = some luna) (hkeys : db.userKeys.get? user = some keys)
    (hreader : keys.sealPublic = reader.val)
    (hversions : ∀ backup version key, db.backupKeys.get? (backup, version) = some key → key.version = version)
    (h : sealCopies c db luna user reader rand versions = .ok (copies, missing)) :
    ∀ r ∈ copies, GoodCopy c db r.1 r.2 := by
  induction versions generalizing rand copies missing with
  | nil =>
    obtain ⟨rfl, -⟩ := Prod.mk.inj (ok.inj h)
    exact fun r hr => absurd hr not_mem_nil
  | cons v versions ih =>
    obtain ⟨backup, version⟩ := v
    unfold sealCopies at h
    cases hfind : (db.listBackupKeys backup).find? fun k => k.version = version with
    | none =>
      rw [hfind] at h
      cases hrest : sealCopies c db luna user reader (fun n => rand (n + 1)) versions with
      | error e => simp [hrest, bind, Except.bind] at h
      | ok r =>
        simp only [hrest, bind, Except.bind, pure, Except.pure, ok.injEq, Prod.mk.injEq] at h
        rw [← h.1]
        exact ih hrest
    | some key =>
      rw [hfind] at h
      cases hcopy : sealKeyCopy c luna.seed (rand 0) reader (keyAad luna.lunaId backup version user)
          key.key key.dedupKey with
      | error e => simp [hcopy, bind, Except.bind] at h
      | ok copy =>
        cases hrest : sealCopies c db luna user reader (fun n => rand (n + 1)) versions with
        | error e => simp [hcopy, hrest, bind, Except.bind] at h
        | ok r =>
          simp only [hcopy, hrest, bind, Except.bind, pure, Except.pure, ok.injEq, Prod.mk.injEq] at h
          rw [← h.1]
          refine forall_mem_cons.mpr ⟨?_, ih hrest⟩
          obtain ⟨version', hget⟩ := Db.mem_listBackupKeys.mp (mem_of_find?_eq_some hfind)
          obtain rfl : key.version = version := by simpa using find?_some hfind
          obtain rfl := hversions _ _ _ hget
          exact ⟨_, _, _, luna, key, keys, reader, rand 0, rfl, hluna, hget, hkeys, hreader, hcopy⟩

/-- Keys, copies and snapshots stay as they are. -/
def Unmoved (s t : State) : Prop := SameCopies s t ∧ t.db.snapshots = s.db.snapshots

theorem Unmoved.keysKept (h : Unmoved s t) (hs : KeysKept c j protection s) : KeysKept c j protection t :=
  h.1.keysKept hs fun _ _ hid => .inl (h.2 ▸ hid)

theorem keeping_unmoved {α : Type} {p : Job α} (h : p.Only fun _ s t => Unmoved s t)
    (hs : KeysKept c j protection s) : Keeping c j protection p s fun _ t => KeysKept c j protection t := by
  have htrans : ∀ s t u, Unmoved s t → Unmoved t u → Unmoved s u := fun s t u h h' =>
    ⟨⟨h'.1.1.trans h.1.1, h'.1.2.trans h.1.2, h'.1.3.trans h.1.3, h'.1.4.trans h.1.4,
      fun b v r => (h'.1.5 b v r).trans (h.1.5 b v r), fun b v => (h'.1.6 b v).trans (h.1.6 b v)⟩,
      h'.2.trans h.2⟩
  refine (h.holds (fun _ _ _ h => h) (fun s => ⟨SameCopies.refl s, rfl⟩) htrans fun _ _ ht => ?_).mono ?_
  · exact ht.keysKept hs
  · exact fun _ _ ht => ht.keysKept hs

theorem slots_unmoved (s : State) (slots : Finset String) : Unmoved s { s with slots := slots } :=
  ⟨⟨rfl, rfl, rfl, rfl, fun _ _ _ => rfl, fun _ _ => rfl⟩, rfl⟩

theorem keeping_takeSlots (hs : KeysKept c j protection s) (backups : List String) :
    Keeping c j protection (takeSlots backups) s fun _ t => KeysKept c j protection t :=
  keeping_unmoved (only_takeSlots (fun _ s slots => slots_unmoved s slots) backups) hs

theorem keeping_dropSlots (hs : KeysKept c j protection s) (backups : List String) :
    Keeping c j protection (dropSlots backups) s fun _ t => KeysKept c j protection t :=
  keeping_unmoved (Prog.only_act fun _ s => slots_unmoved s _) hs

/-- To keep the keys, each part of a program may start anywhere the part before it has kept them. -/
theorem keeping_bind {α β : Type} {p : Job α} {f : α → Job β}
    (h : Keeping c j protection p s fun _ t => KeysKept c j protection t)
    (hf : ∀ a t, KeysKept c j protection t → Keeping c j protection (f a) t fun _ u => KeysKept c j protection u) :
    Keeping c j protection (p >>= f) s fun _ t => KeysKept c j protection t := by
  refine Prog.Holds.bind (fun _ t => KeysKept c j protection t) (h.mono ?_) hf
  rintro (e | a) t ht
  · exact ht
  · exact ht

theorem keeping_attempt {α : Type} {p : Job α} (h : Keeping c j protection p s fun _ t => KeysKept c j protection t) :
    Keeping c j protection (p.attempt : Job (Except Fault α)) s fun _ t => KeysKept c j protection t :=
  Prog.holds_attempt.mpr h

section

variable (hs : KeysKept c j protection s)

include hs

theorem keeping_resealUserLocked (user : String) :
    Keeping c j protection (resealUserLocked c j user) s fun _ t => KeysKept c j protection t := by
  refine Prog.Holds.bind
    (fun found t => t = s ∧ ∀ r, found = some (.inr r) → ∀ w ∈ r.copies, GoodCopy c s.db w.1 w.2) ?_ ?_
  · refine Prog.holds_tryAct.mpr ⟨hs, fun i _ => ?_⟩
    cases hread : readReseal c j s.db user i.rand with
    | error e => exact hs
    | ok found =>
      refine ⟨rfl, fun r hr => ?_⟩
      subst hr
      obtain ⟨keys, luna, reader, -, hkeys, hreader, hluna, hcopies⟩ := readReseal_ok hread
      exact sealCopies_good hluna hkeys hreader hs.versions hcopies
  · rintro (_ | missing | r) t ⟨rfl, hgood⟩
    · exact hs
    · exact hs
    · refine keeping_bind ((keeping_putCopies hs (hgood r rfl)).mono fun _ _ ht => ht.1) fun _ t ht => ?_
      refine keeping_bind ?_ fun _ t ht => keeping_bind ?_ fun _ t ht => ht
      · refine keeping_unmoved (only_putRecord (fun s => ⟨SameCopies.refl s, rfl⟩) fun s => ⟨⟨rfl, rfl, rfl, rfl,
          fun _ _ _ => ?_, fun _ _ => ?_⟩, rfl⟩) ht
        · exact get?_put_of_ne _ _ nofun
        · exact get?_put_of_ne _ _ nofun
      · refine keeping_unmoved (only_write fun s => ?_) ht
        split
        · exact ⟨⟨rfl, rfl, rfl, rfl, fun _ _ _ => rfl, fun _ _ => rfl⟩, rfl⟩
        · exact ⟨SameCopies.refl s, rfl⟩

theorem keeping_resealUserHolding (user : String) (held : Option String) :
    Keeping c j protection (resealUserHolding c j user held) s fun _ t => KeysKept c j protection t := by
  refine keeping_bind (holds_read hs hs) fun backups t ht => ?_
  cases backups with
  | none => exact ht
  | some backups =>
    refine keeping_bind (keeping_takeSlots ht backups) fun ⟨slots, busy⟩ t ht => ?_
    dsimp only
    split
    · exact keeping_bind (keeping_dropSlots ht _) fun _ _ ht => ht
    · refine keeping_bind (keeping_attempt (keeping_resealUserLocked ht user)) fun report t ht => ?_
      exact keeping_bind (keeping_dropSlots ht _) fun _ _ ht => Prog.holds_ofExcept.mpr ht

theorem keeping_resealPendingHolding (held : Option String) :
    Keeping c j protection (resealPendingHolding c j held) s fun _ t => KeysKept c j protection t := by
  refine keeping_bind (holds_read hs hs) fun users t ht => ?_
  induction users generalizing t with
  | nil => exact ht
  | cons user users ih =>
    exact keeping_bind (keeping_attempt (keeping_resealUserHolding ht user held)) fun _ t ht => ih t ht

end

/-! ### A version is published -/

theorem userPublics_some {db : Db} {user : String} {reader : SealPublic}
    (h : (userPublics db).get? user = some reader) :
    ∃ keys, db.userKeys.get? user = some keys ∧ keys.sealPublic = reader.val := by
  obtain ⟨⟨user', keys⟩, hmem, hkeys⟩ := mem_filterMap.mp (mem_rows.mpr h)
  obtain ⟨k, hk, heq⟩ := map_eq_some_iff.mp hkeys
  obtain ⟨rfl, rfl⟩ := Prod.mk.inj heq
  exact ⟨keys, mem_rows.mp hmem, (toFixed_eq_some hk).symm⟩

/-- The store with a signed list of recipients. -/
def State.putList (c : Crypto) (j : Json) (s : State) (luna : Identity) (protection : String) (version : ℤ)
    (users : List String) : State :=
  { s with store.records := s.store.records.put (.recipients protection version) (.recipients users
    (c.sign luna.seed (signedBytes "recipients" (recipientsMessage j luna.lunaId protection version users)))) }

theorem Opens.putList {version' : ℤ} {users : List String} (h : Opens c s protection version user) :
    Opens c (s.putList c j luna protection version' users) protection version user := by
  obtain ⟨luna', key, keys, copy, hluna, hkey, hkeys, hcopy, hopen⟩ := h
  refine ⟨luna', key, keys, copy, hluna, hkey, hkeys, ?_, hopen⟩
  refine (get?_put_of_ne _ _ ?_).trans hcopy
  nofun

/-- With its copies there, a version becomes a published one; other versions stay so. -/
theorem KeysKept.putList (h : KeysKept c j protection s)
    (hluna : s.db.identity = some luna) (hkey : s.db.backupKeys.get? (protection, version) ≠ none)
    (hreaders : s.db.readers.get? (protection, version) = some readers)
    (hopen : ∀ user ∈ readerIds readers, Opens c s protection version user) :
    KeysKept c j protection (s.putList c j luna protection version (readerIds readers)) ∧
      Published c j (s.putList c j luna protection version (readerIds readers)) protection version := by
  have hnew : Published c j (s.putList c j luna protection version (readerIds readers)) protection version := by
    refine ⟨hkey, readers, hreaders, fun user huser => (hopen user huser).putList, luna, _, hluna,
      get?_put_self .., ?_⟩
    rw [verifyRecipients, c.verify_sign, if_pos rfl]
  have hother : ∀ version', version' ≠ version →
      (s.putList c j luna protection version (readerIds readers)).store.records.get?
        (.recipients protection version') = s.store.records.get? (.recipients protection version') :=
    fun version' hne => get?_put_of_ne _ _ fun heq => hne (RecordName.recipients.inj heq).2
  have hold : ∀ version', Published c j s protection version' →
      Published c j (s.putList c j luna protection version (readerIds readers)) protection version' := by
    intro version' hp
    by_cases hversion : version' = version
    · rw [hversion]
      exact hnew
    · obtain ⟨hkey', readers', hreaders', hopen', luna', record, hluna', hrecord, hverify⟩ := hp
      exact ⟨hkey', readers', hreaders', fun user huser => (hopen' user huser).putList, luna', record, hluna',
        (hother version' hversion).trans hrecord, hverify⟩
  refine ⟨⟨h.versions, h.natural, fun version' hlist => ?_, fun id snap hid hp =>
    hold _ (h.snapshots id snap hid hp)⟩, hnew⟩
  by_cases hversion : version' = version
  · rw [hversion]
    exact hnew
  · exact hold _ (h.listed version' (hother version' hversion ▸ hlist))

/-- The copies are written one by one, each good. -/
theorem keeping_publishCopies {userPub : String → Option SealPublic}
    (hs : KeysKept c j protection s) (hluna : s.db.identity = some luna)
    (hkey : s.db.backupKeys.get? (protection, key.version) = some key)
    (hpub : ∀ user reader, userPub user = some reader →
      ∃ keys, s.db.userKeys.get? user = some keys ∧ keys.sealPublic = reader.val) (users : List String) :
    Keeping c j protection (publishCopies c luna protection key userPub users) s fun r t =>
      KeysKept c j protection t ∧ (r = .ok () → t.db = s.db ∧ ∀ user,
        user ∈ users ∨ Opens c s protection key.version user → Opens c t protection key.version user) := by
  induction users generalizing s with
  | nil => exact ⟨hs, fun _ => ⟨rfl, fun user huser => huser.resolve_left not_mem_nil⟩⟩
  | cons user users ih =>
    unfold publishCopies
    split
    · exact ⟨hs, fun h => (nomatch h)⟩
    rename_i reader hreader
    obtain ⟨keys, hkeys, hsealed⟩ := hpub user reader hreader
    refine Prog.Holds.bind (fun _ t => t = s) (Prog.holds_look.mpr ⟨hs, fun _ _ => rfl⟩) ?_
    rintro rand t rfl
    refine Prog.Holds.bind (fun copy t' => t' = t ∧ GoodCopy c t.db (.key protection key.version user) copy)
      (holds_orError (fun copy hcopy => ⟨rfl, ?_⟩) fun _ => ⟨hs, fun h => (nomatch h)⟩) ?_
    · exact ⟨_, _, _, luna, key, keys, reader, rand, rfl, hluna, hkey, hkeys, hsealed, hcopy⟩
    rintro copy t' ⟨rfl, hgood⟩
    refine Prog.Holds.bind (fun _ t => t = t'.putCopy (.key protection key.version user) copy)
      (holds_putRecord hs rfl fun _ => ⟨hs, fun h => (nomatch h)⟩) ?_
    rintro ⟨⟩ t rfl
    refine (ih (hs.putCopy hgood) hluna hkey hpub).mono fun r u hu => ⟨hu.1, fun hr => ?_⟩
    obtain ⟨hdb, hopen⟩ := hu.2 hr
    refine ⟨hdb, fun user' huser' => hopen user' ?_⟩
    rcases huser' with hmem | hopens
    · rcases mem_cons.mp hmem with rfl | hmem
      · exact .inr hgood.opens
      · exact .inl hmem
    · exact .inr (hopens.putCopy hgood)

/-- The signed list comes last. -/
theorem keeping_publishKey
    {userPub : String → Option SealPublic} (hs : KeysKept c j protection s) (hluna : s.db.identity = some luna)
    (hkey : s.db.backupKeys.get? (protection, key.version) = some key)
    (hreaders : s.db.readers.get? (protection, key.version) = some readers)
    (hpub : ∀ user reader, userPub user = some reader →
      ∃ keys, s.db.userKeys.get? user = some keys ∧ keys.sealPublic = reader.val) :
    Keeping c j protection (publishKey c j luna protection key (readerIds readers) userPub) s fun r t =>
      KeysKept c j protection t ∧ (r = .ok () → t.db = s.db ∧ Published c j t protection key.version) := by
  unfold publishKey
  split
  · exact ⟨hs, fun h => (nomatch h)⟩
  refine Prog.Holds.bind (fun _ t => KeysKept c j protection t ∧ t.db = s.db ∧
    ∀ user ∈ readerIds readers, Opens c t protection key.version user)
    ((keeping_publishCopies hs hluna hkey hpub _).mono ?_) ?_
  · rintro (e | ⟨⟩) t ⟨ht, hok⟩
    · exact ⟨ht, fun h => (nomatch h)⟩
    · exact ⟨ht, (hok rfl).1, fun user huser => (hok rfl).2 user (.inl huser)⟩
  rintro ⟨⟩ t ⟨ht, hdb, hopen⟩
  rw [← hdb] at hluna hkey hreaders
  obtain ⟨hkept, hpublished⟩ := ht.putList hluna (by rw [hkey]; nofun) hreaders hopen
  exact holds_putRecord ht ⟨hkept, fun _ => ⟨hdb, hpublished⟩⟩ fun _ => ⟨ht, fun h => (nomatch h)⟩

/-! ### The run -/

/-- A version that was not there is not published yet, and the others stay as they are. -/
theorem KeysKept.addVersion {rotate : Finset String}
    (h : KeysKept c j protection s) (hnone : s.db.backupKeys.get? (protection, key.version) = none)
    (hnat : 0 ≤ key.version) :
    KeysKept c j protection { s with db := { s.db with
      backupKeys := s.db.backupKeys.put (protection, key.version) key
      readers := s.db.readers.put (protection, key.version) readers
      rotate := rotate } } := by
  have hstay : ∀ version, Published c j s protection version → Published c j { s with db := { s.db with
      backupKeys := s.db.backupKeys.put (protection, key.version) key
      readers := s.db.readers.put (protection, key.version) readers
      rotate := rotate } } protection version := by
    rintro version ⟨hkey, readers', hreaders, hopen, hlist⟩
    have hne : (protection, version) ≠ (protection, key.version) := fun heq => hkey (heq ▸ hnone)
    refine ⟨?_, readers', (get?_put_of_ne _ _ hne).trans hreaders, fun user huser => ?_, hlist⟩
    · exact (get?_put_of_ne _ _ hne).symm ▸ hkey
    · obtain ⟨luna, key', keys, copy, hluna, hkey', hrest⟩ := hopen user huser
      exact ⟨luna, key', keys, copy, hluna, (get?_put_of_ne _ _ hne).trans hkey', hrest⟩
  refine ⟨fun backup version key' hget => ?_, fun version key' hget => ?_, fun version hlist =>
    hstay _ (h.listed version hlist), fun id snap hid hp => hstay _ (h.snapshots id snap hid hp)⟩
  · rcases get?_put_some.mp hget with ⟨heq, rfl⟩ | ⟨-, hget⟩
    · exact (Prod.mk.inj heq).2.symm
    · exact h.versions backup version key' hget
  · simp only [get?_put] at hget
    split at hget
    · rename_i heq
      exact (Prod.mk.inj heq).2 ▸ hnat
    · exact h.natural version key' hget

/-- What a run goes on with: its version is published already, or is new, with its readers saved, and is to
be published. -/
def Prepared (c : Crypto) (j : Json) (protection : String) (ctx : RunContext) (publish : Option Publish)
    (t : State) : Prop :=
  ctx.protectionId = protection ∧ t.db.identity = some ctx.identity ∧
    ctx.keyVersion % 2 ^ 32 = ctx.keyVersion ∧
    match publish with
    | none => Published c j t protection ctx.keyVersion
    | some p => p.key.version = ctx.keyVersion ∧
        t.db.backupKeys.get? (protection, p.key.version) = some p.key ∧
        (∀ user reader, p.userPub.get? user = some reader →
          ∃ keys, t.db.userKeys.get? user = some keys ∧ keys.sealPublic = reader.val) ∧
        ∃ readers, t.db.readers.get? (protection, p.key.version) = some readers ∧
          p.recipients = readerIds readers

section

variable (hs : KeysKept c j protection s)

include hs

theorem keeping_prepare (now : ℤ) : Keeping c j protection (Prog.act (.prepare protection) fun i s =>
        let (r, db) := prepare c j protection now i s.db
        (r, { s with db := db }) : Job (Except String (RunContext × Option Publish))) s fun r t =>
      KeysKept c j protection t ∧
        ∀ ctx publish, r = .ok (.ok (ctx, publish)) → Prepared c j protection ctx publish t := by
  refine Prog.holds_act.mpr ⟨hs, fun i hrule => ?_⟩
  change KeysKept c j protection { s with db := (prepare c j protection now i s.db).2 } ∧ _
  rw [keepsPublished, Bool.and_eq_true, decide_eq_true_eq] at hrule
  obtain ⟨hlisted, hbound⟩ := hrule
  rcases prepare_inv (c := c) (j := j) protection now i s.db with
    ⟨hdb, e, herr⟩ | ⟨row, luna, key, db', hrow, hluna, hkey, hdb, hctx⟩
  · rw [hdb]
    exact ⟨hs, fun ctx publish hr => (nomatch herr.symm.trans (ok.inj hr))⟩
  have hlatest : 0 ≤ ((s.db.latestBackupKey protection).map BackupKey.version).getD 0 := by
    cases hk : s.db.latestBackupKey protection with
    | none => exact le_rfl
    | some k =>
      obtain ⟨version, hget⟩ := Db.latestBackupKey_some hk
      rw [map_some, hs.versions _ _ _ hget]
      exact hs.natural _ _ hget
  have hcontext : ∀ ctx publish, (prepare c j protection now i s.db).1 = .ok (ctx, publish) →
      ctx.protectionId = protection ∧ ctx.keyVersion = key.version ∧ ctx.identity = luna :=
    fun ctx publish hr => ⟨(hctx ctx publish hr).1.1, (hctx ctx publish hr).1.2.1, (hctx ctx publish hr).1.2.2.1⟩
  rcases ensureKey_ok hkey with ⟨rfl, hsame, hreaders, hrotate⟩ | ⟨hnone, hversion, rfl⟩
  · -- The latest version is kept: the rule says that its list is in the store.
    have hkept : keptVersion s.db protection = some key.version := by
      simp only [keptVersion, hrow, hsame, bind_eq_bind]
      exact if_pos ⟨hreaders, hrotate⟩
    rw [hkept, all_some, isSome_iff_ne_none] at hlisted
    rw [hsame, map_some, getD_some] at hlatest hbound
    have hmoved : Unmoved s { s with db := (prepare c j protection now i s.db).2 } := by
      rw [hdb]
      exact ⟨⟨rfl, rfl, rfl, rfl, fun _ _ _ => rfl, fun _ _ => rfl⟩, rfl⟩
    refine ⟨hmoved.keysKept hs, fun ctx publish hr => ?_⟩
    have hr := ok.inj hr
    obtain ⟨hprotection, hkeyVersion, hidentity⟩ := hcontext ctx publish hr
    have hpublish := (hctx ctx publish hr).2
    rw [hsame, map_some, if_pos rfl] at hpublish
    subst hpublish
    refine ⟨hprotection, ?_, ?_, ?_⟩
    · rw [hidentity, hmoved.1.identity]
      exact hluna
    · omega
    · rw [hkeyVersion]
      exact hmoved.1.published (hs.listed _ hlisted)
  · -- A new version, to be published.
    have hnat : 0 ≤ key.version := by omega
    have hmoved : Unmoved { s with db := { s.db with
          backupKeys := s.db.backupKeys.put (protection, key.version) key
          readers := s.db.readers.put (protection, key.version) (readersOf s.db (runRecipients s.db row))
          rotate := s.db.rotate.erase protection } }
        { s with db := (prepare c j protection now i s.db).2 } := by
      rw [hdb]
      exact ⟨⟨rfl, rfl, rfl, rfl, fun _ _ _ => rfl, fun _ _ => rfl⟩, rfl⟩
    refine ⟨hmoved.keysKept (hs.addVersion hnone hnat), fun ctx publish hr => ?_⟩
    have hr := ok.inj hr
    obtain ⟨hprotection, hkeyVersion, hidentity⟩ := hcontext ctx publish hr
    have hpublish := (hctx ctx publish hr).2
    rw [if_neg ?_] at hpublish
    · subst hpublish
      refine ⟨hprotection, ?_, ?_, hkeyVersion.symm, ?_, ?_, readersOf s.db (runRecipients s.db row), ?_, ?_⟩
      · rw [hidentity, hmoved.1.identity]
        exact hluna
      · omega
      · rw [hmoved.1.keys]
        exact get?_put_self ..
      · rw [hmoved.1.userKeys]
        exact fun user reader => userPublics_some
      · rw [hmoved.1.readers]
        exact get?_put_self ..
      · rw [readerIds, readersOf, List.map_map]
        exact (List.map_id _).symm
    · intro heq
      rw [heq, getD_some] at hversion
      omega

/-- A run keeps the keys, and commits snapshots of published versions only. -/
theorem keeping_runHolding (source : Source) (acceptMissing : Bool) (now : ℤ) :
    Keeping c j protection (runHolding c j protection source acceptMissing now) s fun _ t =>
      KeysKept c j protection t := by
  refine keeping_bind (keeping_unmoved (only_checkSource (fun _ s => ⟨SameCopies.refl s, rfl⟩)
    (fun _ s => ⟨SameCopies.refl s, rfl⟩) protection source acceptMissing) hs) fun held t ht => ?_
  rcases held with (_ | _) | (_ | _)
  · exact ht
  · exact ht
  · refine Prog.Holds.bind (fun r t => KeysKept c j protection t ∧
      ∀ ctx publish, r = .ok (ctx, publish) → Prepared c j protection ctx publish t)
      ((keeping_prepare ht now).mono ?_) ?_
    · rintro (e | r) t h
      · exact h.1
      · exact ⟨h.1, fun ctx publish hr => h.2 ctx publish (congrArg Except.ok hr)⟩
    rintro (e | ⟨ctx, publish⟩) t ⟨ht, hctx⟩
    · exact ht
    obtain ⟨rfl, hluna, hmod, hpublish⟩ := hctx ctx publish rfl
    have hcopy : ∀ u, KeysKept c j ctx.protectionId u → Published c j u ctx.protectionId ctx.keyVersion →
        Keeping c j ctx.protectionId (copyAndCommit c j ctx source now) u fun _ v =>
          KeysKept c j ctx.protectionId v := by
      intro u hu hpublished
      have hkept : ∀ v, KeysAside ctx u v → KeysKept c j ctx.protectionId v := fun v hv =>
        hv.sameCopies.keysKept hu fun id snap hid =>
          (hv.snapshots id snap hid).imp_right fun hnew _ => by rw [hnew.2, hmod]; exact hpublished
      refine ((copyAndCommit_only source now).holds (fun _ _ _ h => h.2) KeysAside.refl
        (fun _ _ _ => KeysAside.trans) fun _ v hv => hkept v hv).mono fun _ v hv => hkept v hv
    have hall : Keeping c j ctx.protectionId (publishAndCopy c j ctx publish source now) t fun _ u =>
        KeysKept c j ctx.protectionId u := by
      unfold publishAndCopy
      cases publish with
      | none => exact hcopy t ht hpublish
      | some p =>
        obtain ⟨hversion, hkey, hpub, readers, hreaders, hrecipients⟩ := hpublish
        dsimp only
        rw [hrecipients]
        refine Prog.Holds.bind (fun _ u => KeysKept c j ctx.protectionId u ∧
          Published c j u ctx.protectionId ctx.keyVersion) ((keeping_publishKey ht hluna hkey hreaders hpub).mono ?_) ?_
        · rintro (e | ⟨⟩) u hu
          · exact hu.1
          · exact ⟨hu.1, hversion ▸ (hu.2 rfl).2⟩
        · rintro ⟨⟩ u ⟨hu, hpublished⟩
          exact hcopy u hu hpublished
    refine keeping_bind (keeping_attempt hall) fun result u hu => ?_
    have hend : Keeping c j ctx.protectionId (write (.endRun ctx.runId) fun db => db.endRun ctx.runId now) u
        fun _ v => KeysKept c j ctx.protectionId v :=
      keeping_unmoved (only_write fun s => ⟨⟨rfl, rfl, rfl, rfl, fun _ _ _ => rfl, fun _ _ => rfl⟩, rfl⟩) hu
    rcases result with (_ | _) | outcome
    · exact keeping_bind hend fun _ _ hv => hv
    · exact hu
    · exact keeping_bind hend fun _ _ hv => hv
  · exact ht

theorem keeping_runWithRoot (source : Source) (acceptMissing : Bool) (now : ℤ) :
    Keeping c j protection (runWithRoot c j protection source acceptMissing now) s fun _ t =>
      KeysKept c j protection t := by
  refine keeping_bind (keeping_unmoved (Prog.only_act fun i s => ?_) hs) fun took t ht => ?_
  · split
    · exact slots_unmoved s s.slots
    · exact slots_unmoved s _
  cases took with
  | false => exact ht
  | true =>
    refine keeping_bind (keeping_attempt (keeping_bind (keeping_resealPendingHolding ht _) fun _ t ht =>
      keeping_runHolding ht source acceptMissing now)) fun result t ht => ?_
    exact keeping_bind (keeping_dropSlots ht _) fun _ _ ht => Prog.holds_ofExcept.mpr ht

end

/-! ### Runs of one backup, one after the other -/

structure RunArgs where
  source : Source
  acceptMissing : Bool
  now : ℤ

/-- Runs of one backup. The process may die at any section; the restart ends the open runs. -/
def runOps (c : Crypto) (j : Json) (protection : String) :
    Ops RunArgs Label Input ℤ State Fault CloudOutcome where
  prog a := runWithRoot c j protection a.source a.acceptMissing a.now
  restart now s := ⟨s.db.recoverInterruptedRuns now, s.store, ∅⟩

/-- No run keeps a version whose publication an earlier run did not complete. -/
def KeepsPublished (e : Event RunArgs Input ℤ) (x : Solo RunArgs Label Input State Fault CloudOutcome) : Prop :=
  (match e, x.current with
  | .step _, some (_, .sect l _ _) => keepsPublished l x.state
  | _, _ => true) = true

instance (e : Event RunArgs Input ℤ) (x : Solo RunArgs Label Input State Fault CloudOutcome) :
    Decidable (KeepsPublished e x) := inferInstanceAs (Decidable (_ = true))

theorem restart_unmoved (now : ℤ) (s : State) : Unmoved s ((runOps c j protection).restart now s) :=
  ⟨⟨rfl, rfl, rfl, rfl, fun _ _ _ => rfl, fun _ _ => rfl⟩, rfl⟩

theorem runOps_keeps : Solo.Keeps (runOps c j protection) KeepsPublished
    (fun l _ s => keepsPublished l s = true) (fun _ s => KeysKept c j protection s) (KeysKept c j protection)
    fun _ _ t => KeysKept c j protection t where
  post_inv _ _ _ h := h
  start a _ _ h := keeping_runWithRoot h a.source a.acceptMissing a.now
  input _ _ _ _ _ _ h := h
  cut_inv now _ _ _ _ s _ h := (restart_unmoved now s).keysKept h
  idle_inv now x _ h := (restart_unmoved now x.state).keysKept h

theorem readyLuna_keysKept : KeysKept c j "p" readyLuna where
  versions _ _ _ h := nomatch h
  natural _ _ h := nomatch h
  listed _ h := absurd rfl h
  snapshots _ _ h := nomatch h

/-- A copy of one photo and, an hour later, of another. -/
def twoCopies : List (Event RunArgs Input ℤ) :=
  [.start ⟨photo "a.jpg" [1, 2], true, 10⟩] ++ List.replicate 21 (.step (.drawn 10)) ++
  [.start ⟨photo "b.jpg" [3], true, 3610⟩] ++ List.replicate 18 (.step (.drawn 20))

/-- The first run makes version 1 and cannot send its list of recipients; the second finds the version there
and does not publish it. -/
def listNotSent : List (Event RunArgs Input ℤ) :=
  [.start ⟨photo "a.jpg" [1, 2], true, 10⟩] ++ List.replicate 5 (.step (.drawn 10)) ++
  [.step { Input.drawn 10 with store := some (.unavailable "Your cloud storage did not answer.") }] ++
  List.replicate 2 (.step (.drawn 10)) ++
  [.start ⟨photo "a.jpg" [1, 2], true, 3610⟩] ++ List.replicate 18 (.step (.drawn 20))

end LibreServ.Cloud
