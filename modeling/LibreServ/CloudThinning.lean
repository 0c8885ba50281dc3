import LibreServ.CloudRetention

/-! What a retention pass leaves: the newest snapshot, and the oldest of each age. Of snapshots with one time the first in the
list counts. -/

namespace LibreServ.Cloud

open Sections List Table

variable {protection : String}

/-- The bucket of a snapshot's age. -/
def ageBucket (now : ℤ) (x : Id × Snapshot) : Option ℕ := versionBucket (now - x.2.createdAt)

/-- `newest` and the snapshots `oldest b` are what a pass should leave. -/
structure Chosen (now : ℤ) (before : List (Id × Snapshot)) (newest : Id × Snapshot) (oldest : ℕ → Option (Id × Snapshot)) :
    Prop where
  first : newest ∈ before ∧ ∀ y ∈ before, y.2.createdAt ≤ newest.2.createdAt
  eldest : ∀ b x, oldest b = some x → x ∈ before ∧ ageBucket now x = some b ∧
    ∀ y ∈ before, ageBucket now y = some b → x.2.createdAt ≤ y.2.createdAt
  vacant : ∀ b, oldest b = none → ∀ y ∈ before, ageBucket now y ≠ some b

/-- What a pass leaves of a protection's snapshots. -/
structure Retained (now : ℤ) (before after : List (Id × Snapshot)) : Prop where
  kept : ∀ x ∈ after, x ∈ before
  exact : before ≠ [] → ∃ newest oldest, Chosen now before newest oldest ∧
    ∀ x ∈ before, x ∈ after ↔ x = newest ∨ ∃ b, oldest b = some x
  few : after.length ≤ 4

/-! ### Times that are kept -/

theorem versionBucket_lt {age : ℤ} {b : ℕ} (h : versionBucket age = some b) : b ∈ [0, 1, 2] := by
  unfold versionBucket at h
  split at h
  · cases h
    decide
  split at h
  · cases h
    decide
  · split at h
    · cases h
      decide
    · cases h

theorem min_bucket {times : List ℤ} {now t : ℤ} {b : ℕ} :
    (times.filter fun u => versionBucket (now - u) = some b).min? = some t ↔
      t ∈ times ∧ versionBucket (now - t) = some b ∧ ∀ u ∈ times, versionBucket (now - u) = some b → t ≤ u := by
  simp only [min?_eq_some_iff, mem_filter, decide_eq_true_eq, and_imp, and_assoc]

theorem mem_keepVersions {times : List ℤ} {now t : ℤ} : t ∈ keepVersions times now ↔
    ∃ b, t ∈ times ∧ versionBucket (now - t) = some b ∧ ∀ u ∈ times, versionBucket (now - u) = some b → t ≤ u := by
  simp only [keepVersions, mem_filterMap, min_bucket]
  constructor
  · rintro ⟨b, -, h⟩
    exact ⟨b, h⟩
  · rintro ⟨b, h⟩
    exact ⟨b, versionBucket_lt h.2.1, h⟩

/-! ### Snapshots that stay -/

/-- The first snapshot at this time. -/
def firstAt (xs : List (Id × Snapshot)) (t : ℤ) : Option (Id × Snapshot) := xs.find? fun y => y.2.createdAt = t

variable {xs : List (Id × Snapshot)} {x : Id × Snapshot}

theorem firstAt_some {t : ℤ} (h : firstAt xs t = some x) :
    x ∈ xs ∧ x.2.createdAt = t := ⟨mem_of_find?_eq_some h, by simpa using find?_some h⟩

/-- The snapshot is the first at its time, and it is the first of all or its time is kept. -/
def Stays (keep : List ℤ) (xs : List (Id × Snapshot)) (x : Id × Snapshot) : Prop :=
  firstAt xs x.2.createdAt = some x ∧ (xs.head? = some x ∨ x.2.createdAt ∈ keep)

theorem expired_sublist (keep : List ℤ) (xs : List (Id × Snapshot)) (seen : List ℤ) (first : Bool) :
    (expired keep xs seen first).Sublist (xs.map Prod.fst) := by
  induction xs generalizing seen first with
  | nil => exact List.Sublist.slnil
  | cons z rest ih =>
    obtain ⟨id, s⟩ := z
    simp only [expired]
    split
    · exact (ih _ _).cons _
    · exact (ih _ _).cons_cons _

/-- Behind the first snapshot, those go that are not the first at a kept time. -/
theorem mem_expired_rest {keep : List ℤ} (hids : (xs.map Prod.fst).Nodup) (seen : List ℤ)
    {x : Id × Snapshot} (hx : x ∈ xs) : x.1 ∈ expired keep xs seen false ↔
      ¬ (x.2.createdAt ∉ seen ∧ firstAt xs x.2.createdAt = some x ∧ x.2.createdAt ∈ keep) := by
  induction xs generalizing seen with
  | nil => cases hx
  | cons z rest ih =>
    obtain ⟨hnot, hrest⟩ := nodup_cons.mp hids
    have hgone : z.1 ∉ expired keep rest (z.2.createdAt :: seen) false :=
      fun hmem => hnot ((expired_sublist ..).subset hmem)
    rcases mem_cons.mp hx with rfl | hx
    · have hfirst : firstAt (x :: rest) x.2.createdAt = some x := by simp [firstAt]
      obtain ⟨id, s⟩ := x
      simp only [expired, hfirst, true_and, Bool.false_eq_true, false_or]
      by_cases hstay : s.createdAt ∉ seen ∧ s.createdAt ∈ keep
      · simp only [if_pos hstay]
        exact iff_of_false hgone (fun hn => hn hstay)
      · simp only [if_neg hstay]
        exact iff_of_true mem_cons_self hstay
    · have hne : x.1 ≠ z.1 := fun heq => hnot (heq ▸ mem_map_of_mem hx)
      have hz : z ≠ x := fun heq => hne (congrArg Prod.fst heq).symm
      have hmem : x.1 ∈ expired keep (z :: rest) seen false ↔ x.1 ∈ expired keep rest (z.2.createdAt :: seen) false := by
        obtain ⟨id, s⟩ := z
        simp only [expired]
        split
        · exact Iff.rfl
        · rw [mem_cons]
          exact or_iff_right hne
      rw [hmem, ih hrest _ hx]
      by_cases htime : z.2.createdAt = x.2.createdAt
      · have hfirst : firstAt (z :: rest) x.2.createdAt = some z := by simp [firstAt, htime]
        have hseen : x.2.createdAt ∈ z.2.createdAt :: seen := by rw [htime]; exact mem_cons_self
        simp [hfirst, hseen, hz]
      · have hfirst : firstAt (z :: rest) x.2.createdAt = firstAt rest x.2.createdAt := by simp [firstAt, htime]
        have hseen : x.2.createdAt ∈ z.2.createdAt :: seen ↔ x.2.createdAt ∈ seen := by
          rw [mem_cons]
          exact or_iff_right (Ne.symm htime)
        rw [hfirst, hseen]

theorem mem_expired {keep : List ℤ} (hids : (xs.map Prod.fst).Nodup) {x : Id × Snapshot}
    (hx : x ∈ xs) : x.1 ∈ expired keep xs [] true ↔ ¬ Stays keep xs x := by
  cases xs with
  | nil => cases hx
  | cons z rest =>
    obtain ⟨hnot, hrest⟩ := nodup_cons.mp hids
    have hall : expired keep (z :: rest) [] true = expired keep rest [z.2.createdAt] false := by
      obtain ⟨id, s⟩ := z
      simp [expired]
    rw [hall]
    rcases mem_cons.mp hx with rfl | hx
    · refine iff_of_false (fun hmem => hnot ((expired_sublist ..).subset hmem)) fun hn => hn ⟨?_, .inl rfl⟩
      simp [firstAt]
    have hz : z ≠ x := by
      rintro rfl
      exact hnot (mem_map_of_mem hx)
    rw [mem_expired_rest hrest _ hx, Stays, head?_cons, Option.some.injEq, or_iff_right hz]
    by_cases htime : z.2.createdAt = x.2.createdAt
    · have hfirst : firstAt (z :: rest) x.2.createdAt = some z := by simp [firstAt, htime]
      simp [hfirst, htime, hz]
    · have hfirst : firstAt (z :: rest) x.2.createdAt = firstAt rest x.2.createdAt := by simp [firstAt, htime]
      rw [hfirst, mem_singleton, and_iff_right (Ne.symm htime)]

/-! ### One pass over the list -/

/-- The first of the oldest snapshots in a bucket. -/
def oldestIn (now : ℤ) (xs : List (Id × Snapshot)) (b : ℕ) : Option (Id × Snapshot) :=
  (((xs.map fun x => x.2.createdAt).filter fun t => versionBucket (now - t) = some b).min?).bind (firstAt xs)

/-- What a pass leaves of a list. -/
def Left (now : ℤ) (before after : List (Id × Snapshot)) : Prop :=
  ∀ x, x ∈ after ↔ x ∈ before ∧ x.1 ∉ expired (keepVersions (before.map fun s => s.2.createdAt) now) before [] true

/-- Snapshots with ids of their own, newest first. -/
structure Listed (xs : List (Id × Snapshot)) : Prop where
  ids : (xs.map Prod.fst).Nodup
  sorted : xs.Pairwise fun a b => b.2.createdAt ≤ a.2.createdAt

theorem Listed.head (h : Listed xs) {z : Id × Snapshot} (hz : xs.head? = some z) :
    ∀ y ∈ xs, y.2.createdAt ≤ z.2.createdAt := by
  cases xs with
  | nil => cases hz
  | cons x rest =>
    obtain rfl : x = z := Option.some.inj hz
    intro y hy
    rcases mem_cons.mp hy with rfl | hy
    · exact Int.le_refl _
    · exact (pairwise_cons.mp h.sorted).1 y hy

theorem firstAt_isSome (hx : x ∈ xs) :
    ∃ z, firstAt xs x.2.createdAt = some z := by
  refine Option.isSome_iff_exists.mp ?_
  rw [firstAt, find?_isSome]
  exact ⟨x, hx, decide_eq_true rfl⟩

theorem firstAt_head {z : Id × Snapshot} (hz : xs.head? = some z) :
    firstAt xs z.2.createdAt = some z := by
  cases xs with
  | nil => cases hz
  | cons x rest =>
    obtain rfl : x = z := Option.some.inj hz
    simp [firstAt]

variable {now : ℤ}

theorem oldestIn_some {b : ℕ} (h : oldestIn now xs b = some x) :
    firstAt xs x.2.createdAt = some x ∧ x ∈ xs ∧ ageBucket now x = some b ∧
      ∀ y ∈ xs, ageBucket now y = some b → x.2.createdAt ≤ y.2.createdAt := by
  obtain ⟨t, ht, hfirst⟩ := Option.bind_eq_some_iff.mp h
  obtain ⟨hx, rfl⟩ := firstAt_some hfirst
  obtain ⟨-, hb, hmin⟩ := min_bucket.mp ht
  exact ⟨hfirst, hx, hb, fun y hy hby => hmin _ (mem_map_of_mem hy) hby⟩

theorem oldestIn_none {b : ℕ} (h : oldestIn now xs b = none) :
    ∀ y ∈ xs, ageBucket now y ≠ some b := by
  intro y hy hb
  have hmem : y.2.createdAt ∈ (xs.map fun x => x.2.createdAt).filter fun t => versionBucket (now - t) = some b :=
    mem_filter.mpr ⟨mem_map_of_mem hy, decide_eq_true hb⟩
  cases hmin : ((xs.map fun x => x.2.createdAt).filter fun t => versionBucket (now - t) = some b).min? with
  | none =>
    rw [min?_eq_none_iff.mp hmin] at hmem
    cases hmem
  | some t =>
    obtain ⟨x, hx, rfl⟩ := mem_map.mp (min_bucket.mp hmin).1
    obtain ⟨z, hz⟩ := firstAt_isSome hx
    rw [oldestIn, hmin, Option.bind_some, hz] at h
    cases h

/-- A snapshot stays if it is the newest or the oldest of its bucket. -/
theorem stays_iff : Stays (keepVersions (xs.map fun s => s.2.createdAt) now) xs x ↔
      xs.head? = some x ∨ ∃ b, oldestIn now xs b = some x := by
  constructor
  · rintro ⟨hfirst, hhead | hkeep⟩
    · exact .inl hhead
    · obtain ⟨b, hb⟩ := mem_keepVersions.mp hkeep
      refine .inr ⟨b, ?_⟩
      rw [oldestIn, min_bucket.mpr hb]
      exact hfirst
  · rintro (hhead | ⟨b, hb⟩)
    · exact ⟨firstAt_head hhead, .inl hhead⟩
    · obtain ⟨hfirst, hx, hbucket, hmin⟩ := oldestIn_some hb
      refine ⟨hfirst, .inr (mem_keepVersions.mpr ⟨b, mem_map_of_mem hx, hbucket, fun u hu hbu => ?_⟩)⟩
      obtain ⟨y, hy, rfl⟩ := mem_map.mp hu
      exact hmin y hy hbu

variable {before after : List (Id × Snapshot)}

section

variable (h : Listed before)

include h

theorem Listed.left (hleft : Left now before after)
    {x : Id × Snapshot} : x ∈ after ↔ x ∈ before ∧ (before.head? = some x ∨ ∃ b, oldestIn now before b = some x) := by
  rw [hleft x]
  refine and_congr_right fun hx => ?_
  rw [mem_expired h.ids hx, not_not, stays_iff]

theorem Listed.retained (hafter : Listed after)
    (hleft : Left now before after) : Retained now before after := by
  refine ⟨fun x hx => ((hleft x).mp hx).1, fun hne => ?_, ?_⟩
  · obtain ⟨newest, hhead⟩ : ∃ z, before.head? = some z := ⟨before.head hne, head?_eq_some_head hne⟩
    refine ⟨newest, oldestIn now before, ⟨⟨mem_of_mem_head? hhead, h.head hhead⟩, fun b x hx => (oldestIn_some hx).2,
      fun b hnone => oldestIn_none hnone⟩, fun x hx => ?_⟩
    rw [h.left hleft, and_iff_right hx, hhead, Option.some.injEq, eq_comm]
  · have hnodup : after.Nodup := hafter.ids.of_map
    have hsub : after ⊆ before.head?.toList ++ [0, 1, 2].filterMap (oldestIn now before) := by
      intro x hx
      rcases ((h.left hleft).mp hx).2 with hhead | ⟨b, hb⟩
      · exact mem_append_left _ (by rw [hhead]; exact mem_singleton.mpr rfl)
      · exact mem_append_right _ (mem_filterMap.mpr ⟨b, versionBucket_lt (oldestIn_some hb).2.2.1, hb⟩)
    have hlen := (hnodup.subperm hsub).length_le
    have hhead : before.head?.toList.length ≤ 1 := by cases before.head? <;> simp
    have hrest : ([0, 1, 2].filterMap (oldestIn now before)).length ≤ 3 := length_filterMap_le _ _
    rw [length_append] at hlen
    omega

/-- No two of the snapshots that are left have one time. -/
theorem Listed.times (hleft : Left now before after)
    {x y : Id × Snapshot} (hx : x ∈ after) (hy : y ∈ after) (heq : x.2.createdAt = y.2.createdAt) : x = y := by
  have hfirst : ∀ {z}, z ∈ after → firstAt before z.2.createdAt = some z := fun hz =>
    (stays_iff.mpr ((h.left hleft).mp hz).2).1
  have hxy := hfirst hx
  rw [heq, hfirst hy] at hxy
  exact (Option.some.inj hxy).symm

/-- A second pass at the same time removes nothing. -/
theorem Listed.again (hafter : Listed after)
    (hleft : Left now before after) : expired (keepVersions (after.map fun s => s.2.createdAt) now) after [] true = [] := by
  rw [eq_nil_iff_forall_not_mem]
  intro id hid
  obtain ⟨x, hx, rfl⟩ := mem_map.mp ((expired_sublist ..).subset hid)
  refine (mem_expired hafter.ids hx).mp hid ?_
  have hfirst : firstAt after x.2.createdAt = some x := by
    obtain ⟨z, hz⟩ := firstAt_isSome hx
    obtain ⟨hzmem, htime⟩ := firstAt_some hz
    rw [hz, h.times hleft hzmem hx htime]
  refine ⟨hfirst, ?_⟩
  rcases ((h.left hleft).mp hx).2 with hhead | ⟨b, hb⟩
  · left
    obtain ⟨z, hz⟩ : ∃ z, after.head? = some z := ⟨after.head (ne_nil_of_mem hx), head?_eq_some_head _⟩
    have hzmem := mem_of_mem_head? hz
    have hle := h.head hhead z ((hleft z).mp hzmem).1
    have hge := hafter.head hz x hx
    rw [hz, h.times hleft hzmem hx (by omega)]
  · right
    obtain ⟨-, -, hbucket, hmin⟩ := oldestIn_some hb
    refine mem_keepVersions.mpr ⟨b, mem_map_of_mem hx, hbucket, fun u hu hbu => ?_⟩
    obtain ⟨y, hy, rfl⟩ := mem_map.mp hu
    exact hmin y ((hleft y).mp hy).1 hbu

end

/-! ### The pass -/

/-- Every store call succeeds. -/
def Answers (_ : Label) (i : Input) (_ : State) : Prop := i.store = none

/-- These snapshots are gone, with their records, and nothing else of either kind. -/
structure Dropped (ids : List Id) (s t : State) : Prop where
  snapshots : ∀ id, t.db.snapshots.get? id = if id ∈ ids then none else s.db.snapshots.get? id
  records : ∀ name, t.store.records.get? name =
    if name ∈ ids.map (snapshotRecordRef s.db) then none else s.store.records.get? name

theorem snapshotRecordRef_delete {db : Db} {id id' : Id} (hne : id' ≠ id) :
    snapshotRecordRef (db.deleteCloudSnapshot id) id' = snapshotRecordRef db id' := by
  simp only [snapshotRecordRef, Db.deleteCloudSnapshot, get?_erase, if_neg hne]

/-- The first snapshot goes, and then the others. -/
theorem Dropped.cons {id : Id} {ids : List Id} {s t : State} {store : Store} (hid : id ∉ ids)
    (hrecords : ∀ name, store.records.get? name = if name = snapshotRecordRef s.db id then none else s.store.records.get? name)
    (h : Dropped ids { s with db := s.db.deleteCloudSnapshot id, store := store } t) : Dropped (id :: ids) s t := by
  refine ⟨fun id' => ?_, fun name => ?_⟩
  · rw [h.snapshots]
    simp only [Db.deleteCloudSnapshot]
    by_cases hrest : id' ∈ ids
    · simp [hrest]
    · simp [hrest]
  · have hrefs : ids.map (snapshotRecordRef (s.db.deleteCloudSnapshot id)) = ids.map (snapshotRecordRef s.db) := by
      apply map_congr_left
      intro id' hid'
      apply snapshotRecordRef_delete
      rintro rfl
      exact hid hid'
    rw [h.records, map_cons]
    simp only [hrefs, hrecords]
    by_cases hrest : name ∈ ids.map (snapshotRecordRef s.db)
    · simp [hrest]
    · simp [hrest]

theorem removeSnapshots_holds {ids : List Id} (hids : ids.Nodup) (s : State) :
    (removeSnapshots ids).Holds Answers (fun _ _ => True) s fun r t => r = .ok ids.length ∧ Dropped ids s t := by
  induction ids generalizing s with
  | nil => exact ⟨rfl, fun id => rfl, fun name => rfl⟩
  | cons id ids ih =>
    obtain ⟨hid, hrest⟩ := nodup_cons.mp hids
    -- what is left to do once the record is gone
    have hgoOn : ∀ store : Store, (∀ name, store.records.get? name =
        if name = snapshotRecordRef s.db id then none else s.store.records.get? name) →
        (do
          write (.deleteSnapshot id) fun db => db.deleteCloudSnapshot id
          let removed ← removeSnapshots ids
          return removed + 1 : Job ℕ).Holds Answers (fun _ _ => True) { s with store := store }
          fun r t => r = .ok (id :: ids).length ∧ Dropped (id :: ids) s t := by
      intro store hrecords
      refine ⟨trivial, fun i _ => ?_⟩
      have hrun := ih hrest { s with db := s.db.deleteCloudSnapshot id, store := store }
      have hbind : (removeSnapshots ids >>= fun removed => (pure (removed + 1) : Job ℕ)).Holds Answers (fun _ _ => True)
          { s with db := s.db.deleteCloudSnapshot id, store := store }
          fun r t => r = .ok (id :: ids).length ∧ Dropped (id :: ids) s t := by
        refine Prog.holds_bind.mpr (hrun.mono fun r t ⟨hr, hdropped⟩ => ?_)
        subst hr
        exact ⟨rfl, hdropped.cons hid hrecords⟩
      exact hbind
    refine ⟨trivial, fun i _ => ⟨trivial, fun i' (hstore : i'.store = none) => ?_⟩⟩
    cases hget : s.store.records.get? (snapshotRecordRef s.db id) with
    | none =>
      simp only [hstore, hget]
      refine hgoOn s.store fun name => ?_
      split
      · next heq => rw [heq, hget]
      · rfl
    | some record =>
      simp only [hstore, hget]
      exact hgoOn { s.store with records := s.store.records.erase (snapshotRecordRef s.db id) } fun name =>
        get?_erase ..

/-- Packs may change; snapshots and records do not. -/
def SameSnapshots (s t : State) : Prop := t.db.snapshots = s.db.snapshots ∧ t.store.records = s.store.records

theorem claimPack_snapshots (db : Db) (id : Bytes32) (scope : Bytes) (now : ℤ) :
    (claimPack db id scope now).2.snapshots = db.snapshots := by
  unfold claimPack
  split
  · rfl
  split
  · rfl
  · split
    · rfl
    · rfl
  · rfl

theorem deleteClaimed_holds (scope : Bytes) (now : ℤ) (ids : List Bytes32) (s : State) :
    (deleteClaimed scope now ids).Holds Answers (fun _ _ => True) s fun r t => (∃ n, r = .ok n) ∧ SameSnapshots s t := by
  induction ids generalizing s with
  | nil => exact ⟨⟨_, rfl⟩, rfl, rfl⟩
  | cons id ids ih =>
    have hgoOn : ∀ (size : ℕ) (u : State), SameSnapshots s u →
        (do
          write (.deleteRow id) fun db => db.deletePackRow id
          deleteClaimed scope now ids >>= fun r => pure (r.1 + 1, r.2 + size) : Job (ℕ × ℕ)).Holds Answers (fun _ _ => True) u
          fun r t => (∃ n, r = .ok n) ∧ SameSnapshots s t := by
      intro size u hu
      refine ⟨trivial, fun i _ => ?_⟩
      have hbind : (deleteClaimed scope now ids >>= fun r => (pure (r.1 + 1, r.2 + size) : Job (ℕ × ℕ))).Holds Answers
          (fun _ _ => True) { u with db := u.db.deletePackRow id } fun r t => (∃ n, r = .ok n) ∧ SameSnapshots s t := by
        refine Prog.holds_bind.mpr ((ih _).mono ?_)
        rintro r t ⟨⟨n, rfl⟩, hsame⟩
        exact ⟨⟨_, rfl⟩, hsame.1.trans hu.1, hsame.2.trans hu.2⟩
      exact hbind
    refine ⟨trivial, fun i _ => ?_⟩
    have hclaimed : SameSnapshots s { s with db := (claimPack s.db id scope now).2 } :=
      ⟨claimPack_snapshots s.db id scope now, rfl⟩
    cases hclaim : (claimPack s.db id scope now).1 with
    | none =>
      simp only [hclaim]
      exact (ih _).mono fun r t h => ⟨h.1, h.2.1.trans hclaimed.1, h.2.2.trans hclaimed.2⟩
    | some claim =>
      simp only [hclaim]
      refine ⟨trivial, fun i' (hstore : i'.store = none) => ?_⟩
      cases hget : s.store.packs.get? id with
      | none =>
        simp only [hstore, hget]
        exact hgoOn claim.size _ hclaimed
      | some bytes =>
        simp only [hstore, hget]
        exact hgoOn claim.size _ ⟨hclaimed.1, rfl⟩

/-- The snapshots that a pass removes. -/
def toRemove (db : Db) (protection : String) (now : ℤ) : List Id :=
  expired (keepVersions ((db.listCloudSnapshots protection).map fun s => s.2.createdAt) now) (db.listCloudSnapshots protection) [] true

theorem listCloudSnapshots_listed (db : Db) (protection : String) : Listed (db.listCloudSnapshots protection) := by
  have hperm : (db.listCloudSnapshots protection).Perm (db.snapshots.select fun _ s => s.protectionId = protection) :=
    perm_insertionSort _ _
  refine ⟨?_, ?_⟩
  · refine (hperm.map Prod.fst).nodup_iff.mpr ?_
    exact db.snapshots.nodup.sublist (filter_sublist.map Prod.fst)
  · have : Std.Total fun a b : Id × Snapshot => b.2.createdAt ≤ a.2.createdAt := ⟨fun a b => Int.le_total _ _⟩
    have : IsTrans (Id × Snapshot) fun a b => b.2.createdAt ≤ a.2.createdAt := ⟨fun _ _ _ hab hbc => Int.le_trans hbc hab⟩
    exact pairwise_insertionSort _ _

theorem mem_listCloudSnapshots {db : Db} :
    x ∈ db.listCloudSnapshots protection ↔ db.snapshots.get? x.1 = some x.2 ∧ x.2.protectionId = protection := by
  rw [Db.listCloudSnapshots, mem_insertionSort]
  exact mem_select.trans (and_congr_right fun _ => decide_eq_true_iff)

theorem thin_holds (protection : String) (scope : Bytes) (now : ℤ) (s : State) :
    (thin protection scope now).Holds Answers (fun _ _ => True) s fun r t => ∃ out, r = .ok out ∧
      out.snapshotsRemoved = (toRemove s.db protection now).length ∧ Dropped (toRemove s.db protection now) s t := by
  have hids : (toRemove s.db protection now).Nodup :=
    (listCloudSnapshots_listed s.db protection).ids.sublist (expired_sublist ..)
  refine ⟨trivial, fun i _ => ?_⟩
  show (removeSnapshots (toRemove s.db protection now) >>= _).Holds Answers (fun _ _ => True) s _
  refine Prog.holds_bind.mpr ((removeSnapshots_holds hids s).mono fun r t ⟨hr, hdropped⟩ => ?_)
  subst hr
  refine ⟨trivial, fun i' _ => ⟨trivial, fun i'' _ => ?_⟩⟩
  have hsame : ∀ {u : State}, SameSnapshots { t with db := t.db.markUnusedPacks scope now } u →
      Dropped (toRemove s.db protection now) s u := by
    intro u hu
    refine ⟨fun id => ?_, fun name => ?_⟩
    · rw [hu.1]
      exact hdropped.snapshots id
    · rw [hu.2]
      exact hdropped.records name
  show (if recordUploadPending (t.db.markUnusedPacks scope now) = true then _ else _ : Job Thinned).Holds Answers
    (fun _ _ => True) { t with db := t.db.markUnusedPacks scope now } _
  split
  · exact ⟨_, rfl, rfl, hsame ⟨rfl, rfl⟩⟩
  · refine ⟨trivial, fun i₃ _ => ?_⟩
    show (deleteClaimed scope now _ >>= _).Holds Answers (fun _ _ => True) _ _
    refine Prog.holds_bind.mpr ((deleteClaimed_holds ..).mono fun r u ⟨⟨n, hr⟩, hu⟩ => ?_)
    subst hr
    exact ⟨_, rfl, rfl, hsame hu⟩

theorem Dropped.left {s t : State} (h : Dropped (toRemove s.db protection now) s t) :
    Left now (s.db.listCloudSnapshots protection) (t.db.listCloudSnapshots protection) := by
  intro x
  rw [mem_listCloudSnapshots, mem_listCloudSnapshots, h.snapshots]
  show _ ↔ _ ∧ x.1 ∉ toRemove s.db protection now
  by_cases hmem : x.1 ∈ toRemove s.db protection now
  · simp [hmem]
  · simp [hmem]

theorem mem_toRemove {s t : State} (h : Dropped (toRemove s.db protection now) s t) {id : Id} :
    id ∈ toRemove s.db protection now ↔
      ∃ x ∈ s.db.listCloudSnapshots protection, x ∉ t.db.listCloudSnapshots protection ∧ x.1 = id := by
  constructor
  · intro hid
    obtain ⟨x, hx, rfl⟩ := mem_map.mp ((expired_sublist ..).subset hid)
    exact ⟨x, hx, fun hmem => ((h.left x).mp hmem).2 hid, rfl⟩
  · rintro ⟨x, hx, hnot, rfl⟩
    by_contra hid
    exact hnot ((h.left x).mpr ⟨hx, hid⟩)

end LibreServ.Cloud
