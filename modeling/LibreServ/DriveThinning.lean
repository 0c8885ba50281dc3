import LibreServ.DriveAttempts
import LibreServ.DriveNames

/-! What thinning spares: the newest version of a file that was deleted not long ago, and its stamp. -/

namespace LibreServ.DriveBackup

open Files (Text split join)
open FileTree List Table Except

variable {k : Target} {rel' : Text}

/-! ### Listings -/

section Listings

variable {t : Tree Text Copy} {rel : Text} {s : Store} {time : Int}

theorem mem_walkFiles : rel ∈ walkFiles t ↔
    ((split rel).any isTempName = false) ∧ ∃ p copy, t.file? p = some copy ∧ copy.name = rel := by
  rw [walkFiles, mem_filterMap]
  constructor
  · rintro ⟨⟨p, e⟩, hrow, hsome⟩
    cases e with
    | dir | link => cases hsome
    | file copy =>
      simp only at hsome
      split at hsome
      · cases hsome
      · rename_i htemp
        obtain rfl := Option.some.inj hsome
        exact ⟨by simpa using htemp, p, copy, Tree.file?_eq_some.mpr (mem_rows.mp hrow), rfl⟩
  · rintro ⟨htemp, p, copy, hcopy, rfl⟩
    refine ⟨(p, .file copy), mem_rows.mpr (Tree.file?_eq_some.mp hcopy), ?_⟩
    simp only [htemp]
    rfl

/-- A copy is listed under the name of its place. -/
theorem file_of_listed (hn : Named k t) (h : rel ∈ walkFiles t) :
    ∃ copy, t.file? (k.place rel) = some copy ∧ copy.name = rel := by
  obtain ⟨-, p, copy, hcopy, rfl⟩ := mem_walkFiles.mp h
  exact ⟨copy, by rw [hn p copy hcopy, hcopy], rfl⟩

/-- Two names in one place are one name. -/
theorem listed_unique (hn : Named k t) (h : rel ∈ walkFiles t) (h' : rel' ∈ walkFiles t)
    (hplace : k.place rel = k.place rel') : rel = rel' := by
  obtain ⟨copy, hcopy, rfl⟩ := file_of_listed hn h
  obtain ⟨copy', hcopy', rfl⟩ := file_of_listed hn h'
  rw [hplace, hcopy'] at hcopy
  rw [Option.some.inj hcopy]

theorem walkFiles_nodup (hn : Named k t) : (walkFiles t).Nodup := by
  rw [walkFiles, List.Nodup, pairwise_filterMap]
  have hkeys : t.rows.Pairwise fun a b => a.1 ≠ b.1 := pairwise_map.mp t.nodup
  refine hkeys.imp_of_mem fun {a b} ha hb hne rel hrel rel' hrel' heq => hne ?_
  -- Both rows hold a copy with this name, so they are the row of its place.
  have hrow : ∀ (row : List Text × FileTree.Entry Copy) copy, row ∈ t.rows → row.2 = .file copy → row.1 = k.place copy.name := by
    rintro ⟨p, e⟩ copy hmem rfl
    rw [hn p copy (Tree.file?_eq_some.mpr (mem_rows.mp hmem))]
  split at hrel
  · rename_i copy hcopy
    split at hrel
    · cases hrel
    split at hrel'
    · rename_i copy' hcopy'
      split at hrel'
      · cases hrel'
      rw [hrow a copy ha hcopy, hrow b copy' hb hcopy', Option.some.inj hrel, Option.some.inj hrel', heq]
    · cases hrel'
  · cases hrel

theorem mem_currentFiles : rel ∈ currentFiles s ↔ rel ∈ walkFiles s.current := (perm_insertionSort _ _).mem_iff

theorem versionTimes_lt (s : Store) : (versionTimes s).Pairwise (· < ·) := by
  have hsorted : (versionTimes s).Pairwise (· ≤ ·) := pairwise_insertionSort _ _
  have hnodup : (versionTimes s).Nodup := (perm_insertionSort _ _).nodup_iff.mpr s.versions.nodup
  exact (hsorted.and hnodup).imp fun h => lt_of_le_of_ne h.1 h.2

theorem mem_versionTimes (h : rel ∈ walkFiles (s.version time)) : time ∈ versionTimes s := by
  obtain ⟨-, p, copy, hcopy, -⟩ := mem_walkFiles.mp h
  refine (perm_insertionSort _ _).mem_iff.mpr (Table.mem_keys.mpr ?_)
  cases hget : s.versions.get? time with
  | some tree => exact ⟨tree, rfl⟩
  | none =>
    rw [Store.version, hget] at hcopy
    cases hcopy

theorem mem_allVersions : (time, rel) ∈ allVersions s ↔ rel ∈ walkFiles (s.version time) := by
  rw [allVersions, mem_flatMap]
  constructor
  · rintro ⟨t, -, hmem⟩
    obtain ⟨rel', hrel', heq⟩ := mem_map.mp hmem
    obtain ⟨rfl, rfl⟩ := Prod.mk.inj heq
    exact hrel'
  · intro h
    exact ⟨time, mem_versionTimes h, mem_map_of_mem h⟩

theorem mem_timesOf : time ∈ timesOf (allVersions s) rel ↔ rel ∈ walkFiles (s.version time) := by
  rw [← mem_allVersions, timesOf, mem_map]
  constructor
  · rintro ⟨v, hv, rfl⟩
    obtain ⟨hmem, hrel⟩ := mem_filter.mp hv
    rwa [← of_decide_eq_true hrel]
  · intro h
    exact ⟨(time, rel), mem_filter.mpr ⟨h, decide_eq_true rfl⟩, rfl⟩

theorem length_timesOf (found : List (Int × Text)) (rel : Text) :
    (timesOf found rel).length = (found.map Prod.snd).count rel := by
  rw [timesOf, length_map, ← countP_eq_length_filter, List.count, countP_map]
  refine countP_congr fun v _ => ?_
  simp

/-- Versions are found from the oldest to the newest. -/
theorem timesOf_sorted (s : Store) (rel : Text) : (timesOf (allVersions s) rel).Pairwise (· ≤ ·) := by
  rw [timesOf, pairwise_map]
  refine List.Pairwise.filter _ ?_
  rw [allVersions, pairwise_flatMap]
  refine ⟨fun t _ => ?_, (versionTimes_lt s).imp fun hlt v hv v' hv' => ?_⟩
  · rw [pairwise_map]
    exact pairwise_of_forall fun _ _ => le_rfl
  · obtain ⟨_, _, rfl⟩ := mem_map.mp hv
    obtain ⟨_, _, rfl⟩ := mem_map.mp hv'
    exact hlt.le

end Listings

/-! ### What is spared -/

/-- This version is as it was. -/
def Spares (t : Int) (p : List Text) (r r' : Run) : Prop := (r'.store.version t).file? p = (r.store.version t).file? p

/-- This stamp is as it was. -/
def Stamps (rel : Text) (r r' : Run) : Prop := r'.manifest.deleted.get? rel = r.manifest.deleted.get? rel

section Spared

variable {t : Int} {p : List Text} {rel : Text} {r : Run} {now : Int} {s : Store}

theorem spares_frame : Frame (Spares t p) where
  refl _ := rfl
  trans _ _ _ h h' := h'.trans h
  blind _ _ _ := rfl

theorem stamps_frame : Frame (Stamps rel) where
  refl _ := rfl
  trans _ _ _ h h' := h'.trans h
  blind _ _ _ := rfl

theorem removeVersion_spares {t' : Int} (h : ¬ (t = t' ∧ p = k.place rel')) :
    Keeps (Spares t p) (removeVersion k t' rel') := by
  intro r
  have hframe : Frame (Spares t p) := spares_frame
  refine hframe.bind_at (hframe.relPlace_does k rel' r) fun place r₁ _ hplace => ?_
  obtain ⟨rfl, rfl⟩ := hplace
  refine (hframe.bind hframe.get fun _ => hframe.bind (hframe.writes fun r s hs => ?_) fun _ => hframe.pure _) _
  obtain rfl := ok.inj hs
  obtain ⟨-, -, hv⟩ := eraseVersion_files t' (k.place rel') r.store
  exact (hv t p).trans (if_neg h)

theorem removeVersion_stamps (rel : Text) (t' : Int) (rel' : Text) : Keeps (Stamps rel) (removeVersion k t' rel') := by
  have hframe : Frame (Stamps rel) := stamps_frame
  exact hframe.bind (hframe.relPlace k rel') fun _ => hframe.bind hframe.get fun _ =>
    hframe.bind (hframe.writes fun _ _ _ => rfl) fun _ => hframe.pure _

theorem removeVersions_spares {times : List Int} (h : ∀ t' ∈ times, ¬ (t = t' ∧ p = k.place rel')) :
    Keeps (Spares t p) (removeVersions k rel' times) := by
  have hframe : Frame (Spares t p) := spares_frame
  induction times with
  | nil => exact hframe.pure 0
  | cons t' rest ih =>
    have hrest := ih fun t'' ht'' => h t'' (mem_cons_of_mem _ ht'')
    exact hframe.bind (removeVersion_spares (h t' mem_cons_self)) fun _ =>
      hframe.bind hrest fun _ => hframe.pure _

theorem removeVersions_stamps (rel rel' : Text) (times : List Int) :
    Keeps (Stamps rel) (removeVersions k rel' times) := by
  have hframe : Frame (Stamps rel) := stamps_frame
  induction times with
  | nil => exact hframe.pure 0
  | cons t' rest ih =>
    exact hframe.bind (removeVersion_stamps rel t' rel') fun _ => hframe.bind ih fun _ => hframe.pure _

theorem forget_stamps (h : rel ≠ rel') : Keeps (Stamps rel) (setManifest fun m => m.forget rel') := by
  intro r
  show (r.manifest.forget rel').deleted.get? rel = _
  rw [Manifest.forget, get?_erase, if_neg h]

/-- The newest version of a file. -/
def Newest (s : Store) (rel : Text) (t : Int) : Prop :=
  rel ∈ walkFiles (s.version t) ∧ ∀ t', rel ∈ walkFiles (s.version t') → t' ≤ t

/-- Deleted, and not long ago on the manifest's clock. -/
def Young (now : Int) (m : Manifest) (rel : Text) : Prop :=
  ∃ stamp, m.deleted.get? rel = some stamp ∧ m.clock now - stamp ≤ deletedKeepSecs

/-! ### By age -/

/-- Of the versions of another name none has both the time and the place. -/
theorem Newest.other (h : Newest s rel t) (hn : s.Named k) (hne : rel' ≠ rel) {t' : Int}
    (ht' : t' ∈ timesOf (allVersions s) rel') : ¬ (t = t' ∧ k.place rel = k.place rel') := by
  rintro ⟨rfl, hplace⟩
  exact hne (listed_unique (hn.versions t) (mem_timesOf.mp ht') h.1 hplace.symm)

theorem Newest.kept (h : Newest s rel t) (now : Int) :
    t ∈ keptTimes now true (timesOf (allVersions s) rel) := by
  have hmem : t ∈ timesOf (allVersions s) rel := mem_timesOf.mpr h.1
  have hsorted := timesOf_sorted s rel
  rw [keptTimes]
  split
  · rename_i latest earlier hrev
    have htimes : timesOf (allVersions s) rel = earlier.reverse ++ [latest] := by
      rw [← reverse_cons, ← hrev, reverse_reverse]
    have hlatest : latest ≤ t := h.2 latest (mem_timesOf.mp (htimes ▸ mem_concat_self))
    rw [htimes] at hmem hsorted
    rcases mem_append.mp hmem with hearlier | hlast
    · have hle := (pairwise_append.mp hsorted).2.2 t hearlier latest mem_cons_self
      rw [le_antisymm hle hlatest]
      exact mem_concat_self
    · rw [mem_singleton.mp hlast]
      exact mem_concat_self
  · rename_i hrev
    rw [reverse_eq_nil_iff.mp hrev] at hmem
    cases hmem

theorem dropExpired_spares (h : Newest s rel t) (hn : s.Named k) {rels : List Text} (hrel : rel ∉ rels) :
    Keeps (Spares t (k.place rel)) (dropExpired k (allVersions s) rels) := by
  have hframe : Frame (Spares t (k.place rel)) := spares_frame
  induction rels with
  | nil => exact hframe.pure 0
  | cons rel' rest ih =>
    have hne : rel' ≠ rel := fun heq => hrel (heq ▸ mem_cons_self)
    have hrest := ih fun hmem => hrel (mem_cons_of_mem _ hmem)
    have hother := removeVersions_spares fun t' ht' => h.other hn hne ht'
    exact hframe.bind hother fun _ => hframe.bind (fun _ => rfl) fun _ => hframe.bind hrest fun _ => hframe.pure _

theorem dropExpired_stamps {found : List (Int × Text)} {rels : List Text} (hrel : rel ∉ rels) :
    Keeps (Stamps rel) (dropExpired k found rels) := by
  have hframe : Frame (Stamps rel) := stamps_frame
  induction rels with
  | nil => exact hframe.pure 0
  | cons rel' rest ih =>
    have hne : rel ≠ rel' := fun heq => hrel (heq ▸ mem_cons_self)
    have hrest := ih fun hmem => hrel (mem_cons_of_mem _ hmem)
    exact hframe.bind (removeVersions_stamps rel rel' _) fun _ => hframe.bind (forget_stamps hne) fun _ =>
      hframe.bind hrest fun _ => hframe.pure _

theorem thinEach_spares (h : Newest s rel t) (hn : s.Named k) (rels : List Text) (r : Run)
    (hstamp : (r.manifest.deleted.get? rel).isSome = true) :
    Spares t (k.place rel) r (stateOf (thinEach k now (allVersions s) rels r)) := by
  have hframe : Frame (Spares t (k.place rel)) := spares_frame
  induction rels generalizing r with
  | nil => exact hframe.pure 0 r
  | cons rel' rest ih =>
    refine hframe.bind_at (hframe.get_does r) fun r₁ r₂ _ hget => ?_
    obtain ⟨rfl, rfl⟩ := hget
    have hremoved : Keeps (Spares t (k.place rel)) (removeVersions k rel'
        ((timesOf (allVersions s) rel').filter fun t' =>
          t' ∉ keptTimes now (r₂.manifest.deleted.get? rel').isSome (timesOf (allVersions s) rel'))) := by
      refine removeVersions_spares fun t' ht' => ?_
      obtain ⟨ht', hdropped⟩ := mem_filter.mp ht'
      by_cases hrel : rel' = rel
      · rw [hrel, hstamp] at hdropped
        rintro ⟨rfl, -⟩
        exact of_decide_eq_true hdropped (h.kept now)
      · exact h.other hn hrel ht'
    refine hframe.bind_at (hremoved.does_with (removeVersions_stamps rel rel' _) r₂) fun n r' _ hsame => ?_
    refine hframe.bind_at ⟨ih r' ?_, fun _ _ _ => trivial⟩ fun m r'' _ _ => hframe.refl r''
    rw [hsame, hstamp]

theorem young_iff {m : Manifest} : Young now m rel ↔
    rel ∈ (m.deleted.rows.filter fun row => m.clock now - row.2 ≤ deletedKeepSecs).map Prod.fst := by
  rw [mem_map]
  constructor
  · rintro ⟨stamp, hget, hage⟩
    exact ⟨(rel, stamp), mem_filter.mpr ⟨mem_rows.mpr hget, decide_eq_true hage⟩, rfl⟩
  · rintro ⟨⟨_, stamp⟩, hmem, rfl⟩
    obtain ⟨hrow, hage⟩ := mem_filter.mp hmem
    exact ⟨stamp, mem_rows.mp hrow, of_decide_eq_true hage⟩

theorem Young.not_expired {m : Manifest} (h : Young now m rel) :
    rel ∉ (m.deleted.rows.filter fun row => deletedKeepSecs < m.clock now - row.2).map Prod.fst := by
  obtain ⟨stamp, hget, hage⟩ := h
  intro hmem
  obtain ⟨⟨_, stamp'⟩, hmem', rfl⟩ := mem_map.mp hmem
  obtain ⟨hrow, hold⟩ := mem_filter.mp hmem'
  have hsame := Option.some.inj ((mem_rows.mp hrow).symm.trans hget)
  have hold' := of_decide_eq_true hold
  omega

/-- The newest version of a file that was deleted not long ago stays; a file that is back is not deleted. -/
theorem thin_spares (hn : r.store.Named k) (h : Newest r.store rel t) (hyoung : Young now r.manifest rel)
    (hgone : rel ∉ currentFiles r.store) : Spares t (k.place rel) r (stateOf (thin k now r)) := by
  have hframe : Frame (Spares t (k.place rel)) := spares_frame
  refine hframe.bind_at (hframe.reads_does _ r) fun here r₁ _ hread => ?_
  obtain ⟨hhere, rest, rfl⟩ := hread
  obtain rfl := ok.inj hhere
  let m : Manifest := { r.manifest with deleted := r.manifest.deleted.keep fun rel _ => rel ∉ currentFiles r.store }
  have hkept : m.deleted.get? rel = r.manifest.deleted.get? rel := by
    rw [Table.get?_keep]
    obtain ⟨stamp, hget, -⟩ := hyoung
    simp [hget, hgone]
  have hyoung' : Young now m rel := by
    obtain ⟨stamp, hget, hage⟩ := hyoung
    exact ⟨stamp, hkept.trans hget, hage⟩
  refine hframe.bind_at (Q := fun _ r' => r' = { r with manifest := m, outcomes := rest })
    ⟨rfl, fun _ r' hrun => (EStateM.Result.ok.inj hrun).2.symm⟩ fun _ r₂ _ hset => ?_
  refine hframe.bind_at (hframe.get_does r₂) fun r₃ r₄ _ hget => ?_
  obtain ⟨rfl, rfl⟩ := hget
  subst hset
  refine hframe.bind_at (hframe.reads_does _ _) fun found r₅ _ hread => ?_
  obtain ⟨hfound, rest', rfl⟩ := hread
  obtain rfl := ok.inj hfound
  have hexpired := dropExpired_spares h hn hyoung'.not_expired
  refine hframe.bind_at (hexpired.does_with (dropExpired_stamps hyoung'.not_expired) _) fun n r₆ _ hsame => ?_
  have hstamp : (r₆.manifest.deleted.get? rel).isSome = true := by
    obtain ⟨stamp, hget, -⟩ := hyoung'
    rw [hsame]
    exact Option.isSome_iff_exists.mpr ⟨stamp, hget⟩
  refine hframe.bind_at ⟨thinEach_spares h hn _ r₆ hstamp, fun _ _ _ => trivial⟩ fun n' r₇ _ _ => ?_
  refine hframe.bind (hframe.writes fun r s hs => ?_) (fun _ => hframe.pure _) r₇
  obtain rfl := ok.inj hs
  exact (pruneFolders_files (versionTimes r.store) r.store).2.2 t _

/-! ### To make room -/

theorem Newest.max (h : Newest s rel t) : (timesOf (allVersions s) rel).max? = some t :=
  max?_eq_some_iff.mpr ⟨mem_timesOf.mpr h.1, fun t' ht' => h.2 t' (mem_timesOf.mp ht')⟩

theorem Spares.listed {r r' : Run} (h : Spares t (k.place rel) r r') (hn : r.store.Named k)
    (hlisted : rel ∈ walkFiles (r.store.version t)) : rel ∈ walkFiles (r'.store.version t) := by
  obtain ⟨copy, hcopy, hname⟩ := file_of_listed (hn.versions t) hlisted
  exact mem_walkFiles.mpr ⟨(mem_walkFiles.mp hlisted).1, k.place rel, copy, h.trans hcopy, hname⟩

theorem Thins.listed {r r' : Run} (h : Thins r r') (hlisted : rel ∈ walkFiles (r'.store.version t)) :
    rel ∈ walkFiles (r.store.version t) := by
  obtain ⟨htemp, p, copy, hcopy, hname⟩ := mem_walkFiles.mp hlisted
  rcases h.versions t p with hnone | hsame
  · rw [hnone] at hcopy
    cases hcopy
  · exact mem_walkFiles.mpr ⟨htemp, p, copy, hsame.symm.trans hcopy, hname⟩

section Folders

variable {spared : Text → Int → Bool} {t' : Int} {names : List Text}

theorem freeFolder_spares (h : t = t' → ∀ rel' ∈ names, p = k.place rel' → spared rel' t' = true)
    (copies : List Text) : Keeps (Spares t p) (freeFolder k spared t' names copies) := by
  have hframe : Frame (Spares t p) := spares_frame
  induction names generalizing copies with
  | nil => exact hframe.pure _
  | cons rel' rest ih =>
    have hrest := ih fun ht rel'' hrel'' => h ht rel'' (mem_cons_of_mem _ hrel'')
    rw [freeFolder]
    split
    · exact hrest copies
    rename_i hspared
    have hother : ¬ (t = t' ∧ p = k.place rel') := fun hboth =>
      hspared (h hboth.1 rel' mem_cons_self hboth.2)
    refine hframe.bind (hframe.relPlace k rel') fun place => hframe.bind (hframe.reads _) fun found => ?_
    cases found with
    | none => exact hrest copies
    | some copy =>
      exact hframe.bind (removeVersion_spares hother) fun _ =>
        hframe.bind (hframe.whenever _ fun _ => rfl) fun _ =>
          hframe.bind (hrest _) fun _ => hframe.pure _

theorem freeFolders_spares (hspared : spared rel t = true) (times copies : List _) (r : Run) (hn : r.store.Named k)
    (hlisted : rel ∈ walkFiles (r.store.version t)) :
    Spares t (k.place rel) r (stateOf (freeFolders k spared times copies r)) := by
  have hframe : Frame (Spares t (k.place rel)) := spares_frame
  induction times generalizing copies r with
  | nil => exact hframe.pure 0 r
  | cons t' rest ih =>
    refine hframe.bind_at (hframe.reads_does _ r) fun names r₁ _ hread => ?_
    obtain ⟨hnames, rest', rfl⟩ := hread
    obtain rfl := ok.inj hnames
    have hfolder : t = t' → ∀ rel' ∈ walkFiles (r.store.version t'), k.place rel = k.place rel' →
        spared rel' t' = true := by
      rintro rfl rel' hrel' hplace
      rwa [← listed_unique (hn.versions t) hlisted hrel' hplace]
    refine hframe.bind_at ((freeFolder_spares hfolder copies).does_with (freeFolder_thins k spared t' _ copies) _)
      fun left r₂ hspares hthins => ?_
    have hpruned : Keeps (Spares t (k.place rel)) (writes (fun s => .ok (pruneFolder t' s)) fun _ => []) := by
      refine hframe.writes fun r s hs => ?_
      obtain rfl := ok.inj hs
      exact (pruneFolder_files t' r.store).2.2 t _
    refine hframe.bind_at (hpruned.does_with (prune_thins (pruneFolder_files t')) r₂) fun _ r₃ hspares' hthins' => ?_
    split
    · exact hframe.refl r₃
    · have hn₂ : r₂.store.Named k := hthins.named hn
      have hlisted₂ : rel ∈ walkFiles (r₂.store.version t) := hspares.listed hn hlisted
      exact ih left.2 r₃ (hthins'.named hn₂) (hspares'.listed hn₂ hlisted₂)

end Folders

/-- The newest version of a file that was deleted not long ago stays. -/
theorem freeSpace_spares (hn : r.store.Named k) (h : Newest r.store rel t) (hyoung : Young now r.manifest rel) :
    Spares t (k.place rel) r (stateOf (freeSpaceByThinning k now r)) := by
  have hframe : Frame (Spares t (k.place rel)) := spares_frame
  refine hframe.bind_at (hframe.get_does r) fun r₁ r₂ _ hget => ?_
  obtain ⟨rfl, rfl⟩ := hget
  refine hframe.bind_at (hframe.reads_does _ r₂) fun times r₃ _ hread => ?_
  obtain ⟨-, rest, rfl⟩ := hread
  refine hframe.bind_at (hframe.reads_does _ _) fun found r₃ _ hread => ?_
  obtain ⟨hfound, rest', rfl⟩ := hread
  obtain rfl := ok.inj hfound
  refine hframe.bind_at (hframe.reads_does _ _) fun here r₃ _ hread => ?_
  obtain ⟨-, rest'', rfl⟩ := hread
  refine freeFolders_spares ?_ _ _ _ hn h.1
  rw [Bool.and_eq_true, decide_eq_true_eq, decide_eq_true_eq]
  exact ⟨h.max, young_iff.mp hyoung⟩

/-! ### Stamps while room is made -/

section Counted

variable {spared : Text → Int → Bool}

/-- A stamp goes with the last copy: as long as there are more copies than this folder lists, it stays. -/
theorem freeFolder_stamps (t' : Int) (names copies : List Text) (r : Run)
    (h : spared rel t' = true ∨ names.count rel = 0 ∨ names.count rel < copies.count rel) :
    Does (Stamps rel) r (freeFolder k spared t' names copies) fun left _ =>
      copies.count rel ≤ left.2.count rel + names.count rel := by
  have hframe : Frame (Stamps rel) := stamps_frame
  induction names generalizing copies r with
  | nil => exact hframe.pure_does r (Nat.le_add_right _ _)
  | cons rel' rest ih =>
    have hcount : (rel' :: rest).count rel = rest.count rel + if rel' = rel then 1 else 0 := by
      rw [count_cons]
      simp
    -- Nothing of this name is removed here.
    have hskip : ∀ r, Does (Stamps rel) r (freeFolder k spared t' rest copies) fun left _ =>
        copies.count rel ≤ left.2.count rel + (rel' :: rest).count rel := by
      intro r
      obtain ⟨hstamps, hleft⟩ := ih copies r (h.imp_right fun hmore => by omega)
      exact ⟨hstamps, fun left r' hrun => (hleft left r' hrun).trans (by omega)⟩
    rw [freeFolder]
    split
    · exact hskip r
    rename_i hspared
    refine hframe.bind_does (hframe.relPlace_does k rel' r) fun place r₁ _ hplace => ?_
    refine hframe.bind_does (hframe.reads_does _ r₁) fun found r₂ _ hread => ?_
    cases found with
    | none => exact hskip r₂
    | some copy =>
      have herase : (copies.erase rel').count rel = copies.count rel - if rel' = rel then 1 else 0 := by
        rw [count_erase]
        simp
      refine hframe.bind_does ((removeVersion_stamps rel t' rel').does r₂) fun _ r₃ _ _ => ?_
      have hforget : Keeps (Stamps rel)
          (whenever (rel' ∉ copies.erase rel') (setManifest fun m => m.forget rel')) := by
        by_cases hrel : rel' = rel
        · have hmem : rel ∈ copies.erase rel' := by
            rw [← count_pos_iff, herase, if_pos hrel]
            rw [if_pos hrel] at hcount
            rw [hrel] at hspared
            have hmore := (h.resolve_left hspared).resolve_left (by omega)
            omega
          simp only [hrel] at hmem ⊢
          simp only [hmem, not_true]
          exact hframe.pure ()
        · exact hframe.whenever _ (forget_stamps fun heq => hrel heq.symm)
      refine hframe.bind_does (hforget.does r₃) fun _ r₄ _ _ => ?_
      have hmore : spared rel t' = true ∨ rest.count rel = 0 ∨ rest.count rel < (copies.erase rel').count rel := by
        refine h.imp_right fun hmore => ?_
        split at hcount
        · rename_i hrel
          rw [if_pos hrel] at herase
          omega
        · rename_i hrel
          rw [if_neg hrel] at herase
          omega
      refine hframe.bind_does (ih _ r₄ hmore) fun left r₅ _ hleft => hframe.pure_does r₅ ?_
      simp only
      omega

/-- The copies of a file that are not older than this time. -/
theorem later_lt {times : List Int} {t₁ t₂ : Int} (hlt : t₁ < t₂) (hmem : t₁ ∈ times) :
    (times.filter fun t => t₂ ≤ t).length < (times.filter fun t => t₁ ≤ t).length := by
  rw [← countP_eq_length_filter, ← countP_eq_length_filter]
  induction times with
  | nil => cases hmem
  | cons t rest ih =>
    have hle : rest.countP (fun t => t₂ ≤ t) ≤ rest.countP fun t => t₁ ≤ t := by
      refine countP_mono_left fun t _ ht => ?_
      simp only [decide_eq_true_eq] at ht ⊢
      omega
    rw [countP_cons, countP_cons]
    rcases mem_cons.mp hmem with rfl | hmem
    · simp only [decide_eq_true_eq]
      rw [if_neg (by omega), if_pos le_rfl]
      omega
    · have hrest := ih hmem
      simp only [decide_eq_true_eq]
      split <;> split <;> omega

/-- The newest version is not removed, so there is a copy left whenever an earlier one goes. -/
theorem freeFolders_stamps {r₀ : Run} (hn : r₀.store.Named k)
    (hspared : ∀ t, (timesOf (allVersions r₀.store) rel).max? = some t → spared rel t = true)
    (times : List Int) (hsorted : times.Pairwise (· < ·)) (copies : List Text)
    (hcopies : ∀ t' ∈ times, ((timesOf (allVersions r₀.store) rel).filter fun t => t' ≤ t).length ≤ copies.count rel)
    (r : Run) (hthins : Thins r₀ r) : Stamps rel r (stateOf (freeFolders k spared times copies r)) := by
  have hframe : Frame (Stamps rel) := stamps_frame
  induction times generalizing copies r with
  | nil => exact hframe.pure 0 r
  | cons t' rest ih =>
    obtain ⟨hfirst, hrest⟩ := pairwise_cons.mp hsorted
    have hhere := hcopies t' mem_cons_self
    refine hframe.bind_at (hframe.reads_does _ r) fun names r₁ _ hread => ?_
    obtain ⟨hnames, rest', rfl⟩ := hread
    obtain rfl := ok.inj hnames
    have hmost : (walkFiles (r.store.version t')).count rel ≤ 1 :=
      nodup_iff_count_le_one.mp (walkFiles_nodup ((hthins.named hn).versions t')) rel
    have hmore : spared rel t' = true ∨ (walkFiles (r.store.version t')).count rel = 0 ∨
        (walkFiles (r.store.version t')).count rel < copies.count rel := by
      by_cases hlisted : rel ∈ walkFiles (r.store.version t')
      · have hmem : t' ∈ timesOf (allVersions r₀.store) rel := mem_timesOf.mpr (hthins.listed hlisted)
        cases hmax : (timesOf (allVersions r₀.store) rel).max? with
        | none =>
          rw [max?_eq_none_iff.mp hmax] at hmem
          cases hmem
        | some latest =>
          obtain ⟨hlatest, hle⟩ := max?_eq_some_iff.mp hmax
          by_cases heq : latest = t'
          · exact .inl (heq ▸ hspared latest hmax)
          · have hlt := later_lt (lt_of_le_of_ne (hle t' hmem) (Ne.symm heq)) hmem
            have hpos : 0 < ((timesOf (allVersions r₀.store) rel).filter fun t => latest ≤ t).length :=
              length_pos_of_mem (mem_filter.mpr ⟨hlatest, decide_eq_true le_rfl⟩)
            exact .inr (.inr (by omega))
      · exact .inr (.inl (count_eq_zero_of_not_mem hlisted))
    obtain ⟨hstamps, hleft⟩ := freeFolder_stamps (k := k) t' _ copies { r with outcomes := rest' } hmore
    have hthinned := freeFolder_thins k spared t' (walkFiles (r.store.version t')) copies { r with outcomes := rest' }
    refine hframe.bind_at (Q := fun left r₂ => Thins { r with outcomes := rest' } r₂ ∧
        copies.count rel ≤ left.2.count rel + (walkFiles (r.store.version t')).count rel)
      ⟨hstamps, fun left r₂ hrun => ⟨?_, hleft left r₂ hrun⟩⟩ fun left r₂ _ hend => ?_
    · rw [hrun] at hthinned
      exact hthinned
    · have hpruned : Keeps (Stamps rel) (writes (fun s => .ok (pruneFolder t' s)) fun _ => []) :=
        hframe.writes fun _ _ _ => rfl
      refine hframe.bind_at (hpruned.does_with (prune_thins (pruneFolder_files t')) r₂) fun _ r₃ _ hthins' => ?_
      split
      · exact hframe.refl r₃
      have hthins₁ : Thins r₀ { r with outcomes := rest' } :=
        thins_frame.trans _ _ _ hthins (thins_frame.blind r r.outcome rest')
      have hthins₃ : Thins r₀ r₃ := thins_frame.trans _ _ _ hthins₁ (thins_frame.trans _ _ _ hend.1 hthins')
      refine ih hrest left.2 (fun t'' ht'' => ?_) r₃ hthins₃
      have hlt := hfirst t'' ht''
      by_cases hlisted : rel ∈ walkFiles (r.store.version t')
      · have hfewer := later_lt hlt (mem_timesOf.mpr (hthins.listed hlisted))
        have hend' := hend.2
        omega
      · have hnone := count_eq_zero_of_not_mem hlisted
        have hend' := hend.2
        have hfewer := List.Sublist.length_le (monotone_filter_right (timesOf (allVersions r₀.store) rel)
          (fun t (ht : decide (t'' ≤ t) = true) => decide_eq_true (hlt.le.trans (of_decide_eq_true ht))))
        omega

end Counted

/-- While room is made, the stamp of a file that was deleted not long ago stays. -/
theorem freeSpace_stamps (hn : r.store.Named k) (hyoung : Young now r.manifest rel) :
    Stamps rel r (stateOf (freeSpaceByThinning k now r)) := by
  have hframe : Frame (Stamps rel) := stamps_frame
  refine hframe.bind_at (hframe.get_does r) fun r₁ r₂ _ hget => ?_
  obtain ⟨rfl, rfl⟩ := hget
  refine hframe.bind_at (hframe.reads_does _ r₂) fun times r₃ _ hread => ?_
  obtain ⟨htimes, rest, rfl⟩ := hread
  obtain rfl := ok.inj htimes
  refine hframe.bind_at (hframe.reads_does _ _) fun found r₃ _ hread => ?_
  obtain ⟨hfound, rest', rfl⟩ := hread
  obtain rfl := ok.inj hfound
  refine hframe.bind_at (hframe.reads_does _ _) fun here r₃ _ hread => ?_
  obtain ⟨-, rest'', rfl⟩ := hread
  refine freeFolders_stamps hn (fun t hmax => ?_) _ (versionTimes_lt r₂.store) _ (fun t' _ => ?_) _
    (thins_frame.blind r₂ r₂.outcome rest'')
  · rw [Bool.and_eq_true, decide_eq_true_eq, decide_eq_true_eq]
    exact ⟨hmax, young_iff.mp hyoung⟩
  · have hfewer := length_filter_le (fun t => decide (t' ≤ t)) (timesOf (allVersions r₂.store) rel)
    rw [count_append, ← length_timesOf]
    exact hfewer.trans (Nat.le_add_right _ _)

end Spared

end LibreServ.DriveBackup
