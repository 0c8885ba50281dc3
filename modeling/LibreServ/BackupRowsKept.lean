import LibreServ.BackupRows

/-! Records and snapshots stay one to one as long as a backup is only deleted while the repository of its app lies where
the backup was made. -/

namespace LibreServ.Backups.State

open List Option Table

variable {st st' : State} {repoID app path : String} {now : Int}

/-- The path of the repository that a record names. -/
def named (st : State) (b : Backup) : Option String := (st.repos.get? b.repoID).map Repository.path

/-- What should be so of every state. -/
structure Sound (st : State) : Prop where
  rows : ∀ id b, st.backups.get? id = some b → b.restic = true →
    ∃ path snapshot, st.named b = some path ∧ b.snapshot = some snapshot ∧ (path, snapshot) ∈ st.snapshots
  made : ∀ m ∈ st.made, m.2 ∈ st.snapshots ↔ (st.backups.get? m.1).isSome = true

def rowsOf (st : State) (app : String) : List (String × Backup) := st.backups.select fun _ b => b.app = some app

/-- What a call should have done. -/
def Done (st : State) (a : Action) (st' : State) : Prop :=
  match a with
  | .cleanupOldBackups app retention => ∃ kept gone : List (String × Backup),
      (kept ++ gone).Perm (st.rowsOf app) ∧ kept.length = min retention (st.rowsOf app).length ∧
        (∀ k ∈ kept, ∀ g ∈ gone, g.2.createdAt ≤ k.2.createdAt) ∧
        (∀ id, st'.backups.get? id = if id ∈ gone.map Prod.fst then none else st.backups.get? id) ∧
        ∀ r ∈ st.snapshots, r ∉ st'.snapshots → ∃ g ∈ gone, g.2.snapshot = some r.2
  | _ => True

/-- The app's repository lies where the backup was made. -/
def InPlace (st : State) (b : Backup) : Prop := b.restic = true → st.lookedUp b = st.named b

instance (b : Backup) : Decidable (st.InPlace b) := inferInstanceAs (Decidable (_ → _))

/-- The calls under which records and snapshots stay one to one. -/
def Careful (st : State) : Action → Prop
  | .deleteBackup backupID => ∀ b ∈ st.backups.get? backupID, st.InPlace b
  | .cleanupOldBackups app retention =>
    (app ≠ "" ∨ (st.listBackups app).length ≤ retention) ∧ ∀ row ∈ (st.listBackups app).drop retention, st.InPlace row.2
  | _ => True

instance : ∀ a, Decidable (st.Careful a)
  | .deleteBackup backupID => inferInstanceAs (Decidable (∀ b ∈ st.backups.get? backupID, st.InPlace b))
  | .cleanupOldBackups app retention =>
    inferInstanceAs (Decidable ((app ≠ "" ∨ _) ∧ ∀ row ∈ (st.listBackups app).drop retention, st.InPlace row.2))
  | .backupApp .. | .restoreApp .. | .createRepository .. | .deleteRepository .. => .isTrue trivial

/-! ### The invariant -/

structure Inv (st : State) : Prop where
  rows : ∀ id b, st.backups.get? id = some b → b.restic = true →
    ∃ path snapshot, st.named b = some path ∧ b.snapshot = some snapshot ∧ (path, snapshot) ∈ st.snapshots
  /-- No two records have one snapshot. -/
  apart : ∀ id id' b b' s, st.backups.get? id = some b → st.backups.get? id' = some b' → b.snapshot = some s →
    b'.snapshot = some s → id = id'
  rowsOld : ∀ id b s, st.backups.get? id = some b → b.snapshot = some s → s < st.nextSnapshot
  old : ∀ r ∈ st.snapshots, r.2 < st.nextSnapshot
  there : ∀ m ∈ st.made, ∀ b, st.backups.get? m.1 = some b → b.restic = true ∧ b.snapshot = some m.2.2 ∧ st.named b = some m.2.1
  gone : ∀ m ∈ st.made, st.backups.get? m.1 = none → m.2 ∉ st.snapshots
  madeOld : ∀ m ∈ st.made, m.2.2 < st.nextSnapshot

/-- Records and snapshots before the calls; each record of restic's has its snapshot. -/
structure Start (st : State) : Prop where
  rows : ∀ id b, st.backups.get? id = some b → b.restic = true →
    ∃ path snapshot, st.named b = some path ∧ b.snapshot = some snapshot ∧ (path, snapshot) ∈ st.snapshots
  apart : ∀ id id' b b' s, st.backups.get? id = some b → st.backups.get? id' = some b' → b.snapshot = some s →
    b'.snapshot = some s → id = id'
  rowsOld : ∀ id b s, st.backups.get? id = some b → b.snapshot = some s → s < st.nextSnapshot
  old : ∀ r ∈ st.snapshots, r.2 < st.nextSnapshot
  made : st.made = []

theorem Start.inv (h : st.Start) : st.Inv := by
  refine ⟨h.rows, h.apart, h.rowsOld, h.old, fun m hm => ?_, fun m hm => ?_, fun m hm => ?_⟩
  all_goals
    rw [h.made] at hm
    cases hm

theorem Inv.sound (h : st.Inv) : st.Sound := by
  refine ⟨h.rows, fun m hm => ⟨fun hin => ?_, fun hsome => ?_⟩⟩
  · cases hget : st.backups.get? m.1 with
    | none => exact absurd hin (h.gone m hm hget)
    | some b => rfl
  · obtain ⟨b, hb⟩ := isSome_iff_exists.mp hsome
    obtain ⟨hrestic, hsnapshot, hnamed⟩ := h.there m hm b hb
    obtain ⟨path, snapshot, hpath, hs, hin⟩ := h.rows m.1 b hb hrestic
    obtain rfl : m.2.1 = path := some.inj (hnamed.symm.trans hpath)
    obtain rfl : m.2.2 = snapshot := some.inj (hsnapshot.symm.trans hs)
    exact hin

/-! ### Deleting -/

/-- A deletion takes its record, and no snapshot of another; where the repository is in place, it takes its own. -/
theorem deleteBackup_some {id : String} {b : Backup} (hb : st.backups.get? id = some b) : ∃ snapshots,
    st.deleteBackup id = { st with snapshots := snapshots, backups := st.backups.erase id } ∧
      (∀ r ∈ snapshots, r ∈ st.snapshots) ∧ (∀ r ∈ st.snapshots, r ∉ snapshots → b.restic = true ∧ b.snapshot = some r.2) ∧
      ∀ path s, b.restic = true → b.snapshot = some s → st.lookedUp b = some path → (path, s) ∉ snapshots := by
  cases hrestic : b.restic with
  | false =>
    refine ⟨st.snapshots, ?_, fun r hr => hr, fun r hr hnot => absurd hr hnot, fun path s h => by cases h⟩
    simp only [deleteBackup, hb, hrestic]
  | true =>
    cases hsnapshot : b.snapshot with
    | none =>
      refine ⟨st.snapshots, ?_, fun r hr => hr, fun r hr hnot => absurd hr hnot, fun path s _ h => by cases h⟩
      simp only [deleteBackup, hb, hrestic, hsnapshot]
    | some snapshot =>
      cases hpath : st.lookedUp b with
      | none =>
        refine ⟨st.snapshots, ?_, fun r hr => hr, fun r hr hnot => absurd hr hnot, fun path s _ _ h => by cases h⟩
        simp only [deleteBackup, hb, hrestic, hsnapshot, hpath]
      | some path =>
        refine ⟨st.snapshots.filter (· ≠ (path, snapshot)), ?_, fun r hr => (mem_filter.mp hr).1, fun r hr hnot => ?_, ?_⟩
        · simp only [deleteBackup, hb, hrestic, hsnapshot, hpath, forgetSnapshot]
        · have heq : r = (path, snapshot) := by
            by_contra hne
            exact hnot (mem_filter.mpr ⟨hr, by simpa using hne⟩)
          exact ⟨rfl, by rw [heq]⟩
        · rintro path' s - hs hpath' hin
          cases hs
          cases hpath'
          have hne := (mem_filter.mp hin).2
          simp at hne

theorem Inv.deleteBackup (h : st.Inv) {id : String} (hcareful : ∀ b ∈ st.backups.get? id, st.InPlace b) :
    (st.deleteBackup id).Inv := by
  cases hb : st.backups.get? id with
  | none =>
    simp only [State.deleteBackup, hb]
    exact h
  | some b =>
    obtain ⟨snapshots, heq, hsub, honly, hforgot⟩ := deleteBackup_some hb
    rw [heq]
    have hget : ∀ {id' b'}, (st.backups.erase id).get? id' = some b' → id' ≠ id ∧ st.backups.get? id' = some b' := by
      intro id' b' hb'
      obtain ⟨hne, hb'⟩ := get?_erase_some.mp hb'
      exact ⟨hne, hb'⟩
    refine ⟨fun id' b' hb' hrestic => ?_, fun id₁ id₂ b₁ b₂ s h₁ h₂ => h.apart id₁ id₂ b₁ b₂ s (hget h₁).2 (hget h₂).2,
      fun id' b' s hb' => h.rowsOld id' b' s (hget hb').2, fun r hr => h.old r (hsub r hr),
      fun m hm b' hb' => h.there m hm b' (hget hb').2, fun m hm hnone hin => ?_, h.madeOld⟩
    · obtain ⟨hne, hb'⟩ := hget hb'
      obtain ⟨path, s, hpath, hs, hin⟩ := h.rows id' b' hb' hrestic
      refine ⟨path, s, hpath, hs, ?_⟩
      by_contra hnot
      obtain ⟨-, hs'⟩ := honly _ hin hnot
      exact hne (h.apart id' id b' b s hb' hb hs hs')
    · cases hget' : st.backups.get? m.1 with
      | none => exact h.gone m hm hget' (hsub _ hin)
      | some b' =>
        have hid : m.1 = id := by
          by_contra hne
          rw [get?_erase, if_neg hne, hget'] at hnone
          cases hnone
        obtain ⟨hrestic, hs, hnamed⟩ := h.there m hm b' hget'
        rw [hid, hb] at hget'
        cases hget'
        exact hforgot m.2.1 m.2.2 hrestic hs ((hcareful b hb hrestic).trans hnamed) hin

/-- Deleting one after the other. -/
theorem Inv.deleteAll (h : st.Inv) {rows : List (String × Backup)} (hnodup : (rows.map Prod.fst).Nodup)
    (hrows : ∀ row ∈ rows, st.backups.get? row.1 = some row.2) (hcareful : ∀ row ∈ rows, st.InPlace row.2) :
    (rows.foldl (fun st row => st.deleteBackup row.1) st).Inv ∧
      (∀ id, (rows.foldl (fun st row => st.deleteBackup row.1) st).backups.get? id =
        if id ∈ rows.map Prod.fst then none else st.backups.get? id) ∧
      ∀ r ∈ st.snapshots, r ∉ (rows.foldl (fun st row => st.deleteBackup row.1) st).snapshots →
        ∃ row ∈ rows, row.2.snapshot = some r.2 := by
  induction rows generalizing st with
  | nil => exact ⟨h, fun id => (if_neg not_mem_nil).symm, fun r hr hnot => absurd hr hnot⟩
  | cons row rest ih =>
    have hb := hrows row mem_cons_self
    have hinv : (st.deleteBackup row.1).Inv := h.deleteBackup fun b hb' => by
      obtain rfl : row.2 = b := some.inj (hb.symm.trans hb')
      exact hcareful row mem_cons_self
    obtain ⟨snapshots, heq, -, honly, -⟩ := deleteBackup_some hb
    obtain ⟨hnot, hnodup⟩ := nodup_cons.mp hnodup
    have hget : ∀ id, (st.deleteBackup row.1).backups.get? id = if id = row.1 then none else st.backups.get? id := by
      intro id
      rw [heq, get?_erase]
    have hrest : ∀ row' ∈ rest, (st.deleteBackup row.1).backups.get? row'.1 = some row'.2 := by
      intro row' hrow'
      rw [hget, if_neg]
      · exact hrows row' (mem_cons_of_mem _ hrow')
      · intro hid
        exact hnot (hid ▸ mem_map_of_mem hrow')
    have hplace : ∀ row' ∈ rest, (st.deleteBackup row.1).InPlace row'.2 := by
      intro row' hrow'
      rw [heq]
      exact hcareful row' (mem_cons_of_mem _ hrow')
    obtain ⟨hall, hids, hsnapshots⟩ := ih hinv hnodup hrest hplace
    refine ⟨hall, fun id => ?_, fun r hr hgone => ?_⟩
    · rw [foldl_cons, hids, hget, map_cons]
      by_cases hid : id = row.1
      · simp [hid]
      · by_cases hin : id ∈ rest.map Prod.fst
        · rw [if_pos hin, if_pos (mem_cons_of_mem _ hin)]
        · rw [if_neg hin, if_neg hid, if_neg]
          exact fun hcons => (mem_cons.mp hcons).elim hid hin
    · by_cases hin : r ∈ (st.deleteBackup row.1).snapshots
      · obtain ⟨row', hrow', hs⟩ := hsnapshots r hin hgone
        exact ⟨row', mem_cons_of_mem _ hrow', hs⟩
      · rw [heq] at hin
        exact ⟨row, mem_cons_self, (honly r hr hin).2⟩

/-! ### The other calls -/

theorem named_put {repo : Repository} (hfresh : st.repos.get? repoID = none) {b : Backup}
    (h : st.named b = some path) : named { st with repos := st.repos.put repoID repo } b = some path := by
  rw [named, get?_put, if_neg]
  · exact h
  · intro heq
    rw [named, heq, hfresh] at h
    cases h

/-- A new repository is nothing to the records. -/
theorem Inv.putRepo (h : st.Inv) (repo : Repository) (hfresh : st.repos.get? repoID = none) :
    Inv { st with repos := st.repos.put repoID repo } := by
  refine ⟨fun id b hb hrestic => ?_, h.apart, h.rowsOld, h.old, fun m hm b hb => ?_, h.gone, h.madeOld⟩
  · obtain ⟨path, s, hpath, hs⟩ := h.rows id b hb hrestic
    exact ⟨path, s, named_put hfresh hpath, hs⟩
  · obtain ⟨hrestic, hs, hnamed⟩ := h.there m hm b hb
    exact ⟨hrestic, hs, named_put hfresh hnamed⟩

theorem Inv.createRepository (h : st.Inv) {isSystem connectManaged : Bool}
    (hfresh : st.repos.get? repoID = none) (hs : st.createRepository repoID app path isSystem connectManaged now = some st') :
    st'.Inv ∧ st'.backups = st.backups ∧ st'.made = st.made ∧ (st'.repos.get? repoID).map Repository.path = some path := by
  obtain ⟨-, hs⟩ := ite_none_left_eq_some.mp hs
  cases hs
  refine ⟨h.putRepo _ hfresh, rfl, rfl, ?_⟩
  rw [get?_put_self]
  rfl

theorem later_mem {best : Option (String × Repository)} {row found : String × Repository} (h : later best row = some found) :
    found = row ∨ best = some found := by
  cases best with
  | none => exact .inl (some.inj h).symm
  | some old =>
    simp only [later] at h
    split at h
    · exact .inl (some.inj h).symm
    · exact .inr h

theorem newest_mem {rows : List (String × Repository)} {row : String × Repository} (h : newest rows = some row) : row ∈ rows := by
  have hin : ∀ (rest : List (String × Repository)) best found, rest.foldl later best = some found →
      found ∈ rest ∨ best = some found := by
    intro rest
    induction rest with
    | nil => exact fun best found h => .inr h
    | cons r rest ih =>
      intro best found h
      rcases ih _ found h with hmem | hbest
      · exact .inl (mem_cons_of_mem _ hmem)
      · rcases later_mem hbest with rfl | hbest
        · exact .inl mem_cons_self
        · exact .inr hbest
  exact (hin rows none row h).resolve_right (fun h => nomatch h)

section

variable (h : st.Inv)

include h

/-- The repository for a new backup is there. -/
theorem Inv.getOrCreate {repoID' : String} (hfresh : st.repos.get? repoID = none)
    (hs : st.getOrCreateRepoForApp repoID app now = some (st', repoID', path)) :
    st'.Inv ∧ st'.backups = st.backups ∧ st'.made = st.made ∧ (st'.repos.get? repoID').map Repository.path = some path := by
  have hfound : ∀ {p id repo}, newest (st.repos.select p) = some (id, repo) → (st.repos.get? id).map Repository.path = some repo.path := by
    intro p id repo hnew
    obtain ⟨hget, -⟩ := mem_select.mp (newest_mem hnew)
    rw [hget]
    rfl
  rw [getOrCreateRepoForApp] at hs
  cases hown : st.getRepositoryForApp app with
  | some row =>
    simp only [hown, some.injEq] at hs
    obtain ⟨rfl, rfl, rfl⟩ := hs
    exact ⟨h, rfl, rfl, hfound hown⟩
  | none =>
    cases hdefault : st.getDefaultRepository with
    | some row =>
      simp only [hown, hdefault, some.injEq] at hs
      obtain ⟨rfl, rfl, rfl⟩ := hs
      exact ⟨h, rfl, rfl, hfound hdefault⟩
    | none =>
      simp only [hown, hdefault] at hs
      obtain ⟨made, hmade, heq⟩ := map_eq_some_iff.mp hs
      obtain ⟨rfl, rfl, rfl⟩ := heq
      exact h.createRepository hfresh hmade

theorem Inv.backupWithRestic {backupID : String} (hfresh : st.Fresh backupID)
    (hpath : (st.repos.get? repoID).map Repository.path = some path) :
    (st.backupWithRestic backupID repoID path app now).Inv := by
  have hget : ∀ {id b}, (st.backupWithRestic backupID repoID path app now).backups.get? id = some b →
      (id = backupID ∧ b = ⟨some app, true, some st.nextSnapshot, repoID, now⟩) ∨ st.backups.get? id = some b := by
    intro id b hb
    rw [State.backupWithRestic, get?_put] at hb
    split at hb
    · next heq => exact .inl ⟨heq, (some.inj hb).symm⟩
    · exact .inr hb
  refine ⟨fun id b hb hrestic => ?_, fun id₁ id₂ b₁ b₂ s h₁ h₂ hs₁ hs₂ => ?_, fun id b s hb hs => ?_, fun r hr => ?_,
    fun m hm b hb => ?_, fun m hm hnone => ?_, fun m hm => ?_⟩
  · rcases hget hb with ⟨-, rfl⟩ | hb
    · exact ⟨path, st.nextSnapshot, hpath, rfl, mem_cons_self⟩
    · obtain ⟨path', s, hnamed, hs, hin⟩ := h.rows id b hb hrestic
      exact ⟨path', s, hnamed, hs, mem_cons_of_mem _ hin⟩
  · rcases hget h₁ with ⟨heq₁, rfl⟩ | hold₁
    · rcases hget h₂ with ⟨heq₂, -⟩ | hold₂
      · exact heq₁.trans heq₂.symm
      · have hlt := h.rowsOld id₂ b₂ s hold₂ hs₂
        cases hs₁
        exact absurd hlt (Nat.lt_irrefl _)
    · rcases hget h₂ with ⟨-, rfl⟩ | hold₂
      · have hlt := h.rowsOld id₁ b₁ s hold₁ hs₁
        cases hs₂
        exact absurd hlt (Nat.lt_irrefl _)
      · exact h.apart id₁ id₂ b₁ b₂ s hold₁ hold₂ hs₁ hs₂
  · rcases hget hb with ⟨-, rfl⟩ | hb
    · cases hs
      exact Nat.lt_succ_self _
    · exact Nat.lt_succ_of_lt (h.rowsOld id b s hb hs)
  · rcases mem_cons.mp hr with rfl | hr
    · exact Nat.lt_succ_self _
    · exact Nat.lt_succ_of_lt (h.old r hr)
  · rcases mem_cons.mp hm with rfl | hm
    · rcases hget hb with ⟨-, rfl⟩ | hb
      · exact ⟨rfl, rfl, hpath⟩
      · rw [hfresh.1] at hb
        cases hb
    · rcases hget hb with ⟨heq, -⟩ | hb
      · exact absurd heq (hfresh.2 m hm)
      · exact h.there m hm b hb
  · rw [State.backupWithRestic, get?_put] at hnone
    rcases mem_cons.mp hm with rfl | hm
    · rw [if_pos rfl] at hnone
      cases hnone
    rw [if_neg (hfresh.2 m hm)] at hnone
    intro hin
    rcases mem_cons.mp hin with heq | hin
    · have hlt := h.madeOld m hm
      rw [heq] at hlt
      exact absurd hlt (Nat.lt_irrefl _)
    · exact h.gone m hm hnone hin
  · rcases mem_cons.mp hm with rfl | hm
    · exact Nat.lt_succ_self _
    · exact Nat.lt_succ_of_lt (h.madeOld m hm)

theorem Inv.backupApp {backupID : String} (hfresh : st.Fresh backupID)
    (hrepo : st.repos.get? repoID = none) : (st.backupApp backupID repoID app now).Inv := by
  rw [State.backupApp]
  split
  · exact h
  cases hcreate : st.getOrCreateRepoForApp repoID app now with
  | none => exact h
  | some r =>
    obtain ⟨mid, repoID', path⟩ := r
    obtain ⟨hmid, hbackups, hmade, hpath⟩ := h.getOrCreate hrepo hcreate
    have hfresh' : mid.Fresh backupID := by
      rw [Fresh, hbackups, hmade]
      exact hfresh
    exact hmid.backupWithRestic hfresh' hpath

theorem Inv.restoreApp (backupID target : String) (done : Bool) : (st.restoreApp backupID target done).Inv := by
  have hmove : ∀ app, Inv { st with
      backups := st.backups.update fun id b => if id = backupID then { b with app := some app } else b } := by
    intro app
    have hget : ∀ {id b}, (st.backups.update fun id b => if id = backupID then { b with app := some app } else b).get? id = some b →
        ∃ old, st.backups.get? id = some old ∧ b.restic = old.restic ∧ b.snapshot = old.snapshot ∧ b.repoID = old.repoID := by
      intro id b hb
      obtain ⟨old, hold, rfl⟩ := get?_update_some.mp hb
      refine ⟨old, hold, ?_⟩
      split
      · exact ⟨rfl, rfl, rfl⟩
      · exact ⟨rfl, rfl, rfl⟩
    have hnamed : ∀ {b old : Backup}, b.repoID = old.repoID → st.named b = st.named old := by
      intro b old heq
      rw [named, heq]
      rfl
    refine ⟨fun id b hb hrestic => ?_, fun id₁ id₂ b₁ b₂ s h₁ h₂ hs₁ hs₂ => ?_, fun id b s hb hs => ?_, h.old,
      fun m hm b hb => ?_, fun m hm hnone => ?_, h.madeOld⟩
    · obtain ⟨old, hold, hr, hs, hid⟩ := hget hb
      obtain ⟨path, s, hpath, hs', hin⟩ := h.rows id old hold (hr ▸ hrestic)
      exact ⟨path, s, (hnamed hid).trans hpath, hs.trans hs', hin⟩
    · obtain ⟨old₁, hold₁, -, hs₁', -⟩ := hget h₁
      obtain ⟨old₂, hold₂, -, hs₂', -⟩ := hget h₂
      exact h.apart id₁ id₂ old₁ old₂ s hold₁ hold₂ (hs₁'.symm.trans hs₁) (hs₂'.symm.trans hs₂)
    · obtain ⟨old, hold, -, hs', -⟩ := hget hb
      exact h.rowsOld id old s hold (hs'.symm.trans hs)
    · obtain ⟨old, hold, hr, hs, hid⟩ := hget hb
      obtain ⟨hrestic, hsnapshot, hpath⟩ := h.there m hm old hold
      exact ⟨hr.trans hrestic, hs.trans hsnapshot, (hnamed hid).trans hpath⟩
    · rw [get?_update, map_eq_none_iff] at hnone
      exact h.gone m hm hnone
  rw [State.restoreApp]
  cases st.backups.get? backupID with
  | none => exact h
  | some b =>
    dsimp only
    generalize (if target = "" then b.app.getD "" else target) = target'
    split
    · exact hmove target'
    · exact h

theorem Inv.deleteRepository (repoID : String) : (st.deleteRepository repoID).Inv := by
  rw [State.deleteRepository]
  cases st.repos.get? repoID with
  | none => exact h
  | some repo =>
    dsimp only
    split
    · exact h
    next hno =>
      rw [not_or, not_or] at hno
      have hnamed : ∀ {id b}, st.backups.get? id = some b →
          named { st with repos := st.repos.erase repoID } b = st.named b := by
        intro id b hb
        rw [named, get?_erase, if_neg]
        · rfl
        · intro heq
          exact hno.2.2 (any_iff.mpr ⟨id, b, hb, by simpa using heq⟩)
      refine ⟨fun id b hb hrestic => ?_, h.apart, h.rowsOld, h.old, fun m hm b hb => ?_, h.gone, h.madeOld⟩
      · rw [hnamed hb]
        exact h.rows id b hb hrestic
      · rw [hnamed hb]
        exact h.there m hm b hb

end

theorem listBackups_perm (st : State) (app : String) :
    (st.listBackups app).Perm (st.backups.select fun _ b => app = "" || b.app = some app) := perm_insertionSort _ _

theorem Inv.cleanup (h : st.Inv) {retention : Nat} (hcareful : st.Careful (.cleanupOldBackups app retention)) :
    (st.cleanupOldBackups app retention).Inv ∧
      st.Done (.cleanupOldBackups app retention) (st.cleanupOldBackups app retention) := by
  have hmem : ∀ row ∈ (st.listBackups app).drop retention, st.backups.get? row.1 = some row.2 := by
    intro row hrow
    have hin := (listBackups_perm st app).mem_iff.mp (mem_of_mem_drop hrow)
    exact (mem_select.mp hin).1
  have hnodup : (((st.listBackups app).drop retention).map Prod.fst).Nodup := by
    have hall : ((st.listBackups app).map Prod.fst).Nodup :=
      ((listBackups_perm st app).map Prod.fst).nodup_iff.mpr (st.backups.nodup.sublist (filter_sublist.map Prod.fst))
    exact hall.sublist ((drop_sublist ..).map Prod.fst)
  obtain ⟨hinv, hget, hsnapshots⟩ := h.deleteAll hnodup hmem hcareful.2
  refine ⟨hinv, ?_⟩
  by_cases happ : app = ""
  · have hshort := hcareful.1.resolve_left (not_not_intro happ)
    have hdrop : (st.listBackups app).drop retention = [] := drop_eq_nil_of_le hshort
    rw [hdrop] at hget hsnapshots
    refine ⟨st.rowsOf app, [], ?_, ?_, ?_, ?_, ?_⟩
    · rw [append_nil]
    · have hle : (st.rowsOf app).length ≤ (st.listBackups app).length := by
        rw [(listBackups_perm st app).length_eq, rowsOf]
        apply List.Sublist.length_le
        refine monotone_filter_right _ fun row hrow => ?_
        simp [happ]
      omega
    · exact fun k hk g hg => nomatch hg
    · intro id
      rw [cleanupOldBackups, hdrop]
      exact hget id
    · intro r hr hnot
      rw [cleanupOldBackups, hdrop] at hnot
      exact absurd hr hnot
  · have hperm : (st.listBackups app).Perm (st.rowsOf app) := by
      refine (listBackups_perm st app).trans ?_
      simp [rowsOf, happ]
    have htotal : Std.Total fun a b : String × Backup => b.2.createdAt ≤ a.2.createdAt :=
      ⟨fun a b => Int.le_total b.2.createdAt a.2.createdAt⟩
    have htrans : IsTrans (String × Backup) fun a b => b.2.createdAt ≤ a.2.createdAt :=
      ⟨fun _ _ _ hab hbc => Int.le_trans hbc hab⟩
    have hsorted : (st.listBackups app).Pairwise fun a b => b.2.createdAt ≤ a.2.createdAt :=
      pairwise_insertionSort _ _
    refine ⟨(st.listBackups app).take retention, (st.listBackups app).drop retention, ?_, ?_, ?_, hget, hsnapshots⟩
    · rw [take_append_drop]
      exact hperm
    · rw [length_take, hperm.length_eq]
    · intro k hk g hg
      rw [← take_append_drop retention (st.listBackups app), pairwise_append] at hsorted
      exact hsorted.2.2 k hk g hg

theorem Inv.step (h : st.Inv) {a : Action} (hcareful : st.Careful a) (hs : st.step a = some st') : st'.Inv ∧ st.Done a st' := by
  cases a with
  | backupApp backupID repoID app now =>
    obtain ⟨⟨hfresh, hrepo⟩, hs⟩ := ite_none_right_eq_some.mp hs
    cases hs
    exact ⟨h.backupApp hfresh hrepo, trivial⟩
  | restoreApp backupID target done =>
    cases hs
    exact ⟨h.restoreApp backupID target done, trivial⟩
  | createRepository repoID app path isSystem connectManaged now =>
    obtain ⟨⟨hfresh, -⟩, hs⟩ := ite_none_right_eq_some.mp hs
    exact ⟨(h.createRepository hfresh hs).1, trivial⟩
  | deleteRepository repoID =>
    cases hs
    exact ⟨h.deleteRepository repoID, trivial⟩
  | deleteBackup backupID =>
    cases hs
    exact ⟨h.deleteBackup hcareful, trivial⟩
  | cleanupOldBackups app retention =>
    cases hs
    exact h.cleanup hcareful

/-- In every state that careful calls reach, records and snapshots are one to one, and the next careful call does what it
should. -/
theorem one_to_one_of_careful {acts : List Action} (hstart : st.Start) (hrun : Runs.run step acts st = some st')
    (hcareful : Runs.Meets step Careful acts st) :
    st'.Sound ∧ ∀ a st'', st'.Careful a → st'.step a = some st'' → st'.Done a st'' := by
  have hinv := Runs.keeps (fun _ _ _ h hc hs => (Inv.step h hc hs).1) hstart.inv hcareful hrun
  exact ⟨hinv.sound, fun a st'' hc hs => (hinv.step hc hs).2⟩

/-- Two apps on a new server. -/
def twoApps : State := ⟨["a", "b"], true, "/srv", .empty, .empty, [], 0, []⟩

theorem start_twoApps : twoApps.Start :=
  ⟨fun _ _ h => (nomatch h), fun _ _ _ _ _ h => (nomatch h), fun _ _ _ h => (nomatch h), fun _ h => (nomatch h), rfl⟩

/-- Backups in the apps' own repositories, one of them restored in place, and one deleted. -/
def inPlace : List Action :=
  [.backupApp "b1" "r1" "a" 1, .backupApp "b2" "r2" "a" 2, .backupApp "b3" "r3" "b" 3, .restoreApp "b1" "a" true,
    .deleteBackup "b2"]

theorem in_place_one_to_one : ∃ st, Runs.run step inPlace twoApps = some st ∧ st.Sound ∧ st.snapshots = [("/srv/repos/b", 2),
    ("/srv/repos/a", 0)] ∧ st.Done (.cleanupOldBackups "a" 0) (st.cleanupOldBackups "a" 0) := by
  have hrun : ∃ st, Runs.run step inPlace twoApps = some st ∧ st.Careful (.cleanupOldBackups "a" 0) ∧
      st.snapshots = [("/srv/repos/b", 2), ("/srv/repos/a", 0)] := ⟨_, rfl, by decide +kernel⟩
  obtain ⟨st, hst, hcareful, hsnapshots⟩ := hrun
  obtain ⟨hsound, hdone⟩ := one_to_one_of_careful start_twoApps hst (by decide +kernel)
  exact ⟨st, hst, hsound, hsnapshots, hdone (.cleanupOldBackups "a" 0) (st.cleanupOldBackups "a" 0) hcareful rfl⟩

/-- A backup in the default repository is deleted, and its snapshot stays; the same after a restore into another app. -/
theorem default_not_one_to_one :
    (∃ st, Runs.run step [.createRepository "r1" "" "/mnt/backups" false false 0, .backupApp "b1" "r2" "a" 1, .deleteBackup "b1"]
      twoApps = some st ∧ ¬ st.Sound) ∧
    ∃ st, Runs.run step [.backupApp "b1" "r1" "a" 1, .restoreApp "b1" "b" true, .cleanupOldBackups "b" 0] twoApps = some st ∧
      ¬ st.Sound := by
  refine ⟨⟨_, rfl, fun h => ?_⟩, ⟨_, rfl, fun h => ?_⟩⟩
  · have hmade := h.made ("b1", "/mnt/backups", 0) (by decide +kernel)
    revert hmade
    decide +kernel
  · have hmade := h.made ("b1", "/srv/repos/a", 0) (by decide +kernel)
    revert hmade
    decide +kernel

end LibreServ.Backups.State
