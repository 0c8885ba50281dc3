import LibreServ.DriveOwes
import LibreServ.Runs

/-! The clock that deleted files age on, over the runs of one backup: runs that bring the backup up to date and runs that
find the source missing, from `drive_backup.rs`. -/

namespace LibreServ.DriveBackup

open Option Manifest Except
open Files (Text)

variable {outcomes : List Outcome}

/-- No-op when already frozen. -/
def Manifest.pause (m : Manifest) (now : Int) : Manifest := if m.pausedSince = 0 then { m with pausedSince := now } else m

/-- `pause_clock`; a failure is only logged. -/
def pauseClock (now : Int) : Act Unit := try' do
  match ← reads fun s => .ok s.manifest with
  | some m => writes (fun s => .ok { s with manifest := some (m.pause now) }) fun _ => []
  | none => pure ()

deriving instance DecidableEq for Outcome

/-- A run of the backup. -/
inductive Turn where
  | synced (i : Sync)
  | sourceMissing (now : Int) (outcomes : List Outcome)

def Turn.now : Turn → Int
  | synced i => i.now
  | sourceMissing now _ => now

/-- What a run that finds the source missing leaves. -/
def paused (now : Int) (outcomes : List Outcome) (s : Store) : Store :=
  (stateOf (pauseClock now ⟨s, Manifest.fresh, ⟨[], 0, 0, 0⟩, outcomes, []⟩)).store

/-- When the last run was, and whether it brought the backup up to date. -/
structure Last where
  time : Int
  looked : Bool

structure Watch where
  store : Store
  last : Option Last

namespace Watch

variable (k : Target)

/-- One run. Times do not go back, and a run that brings the backup up to date goes through. -/
def step (c : Watch) (t : Turn) : Option Watch :=
  if 0 < t.now ∧ ∀ l ∈ c.last, l.time ≤ t.now then
    match t with
    | .synced i =>
      match i.result k [] c.store with
      | .ok true r => some ⟨r.store, some ⟨i.now, true⟩⟩
      | _ => none
    | .sourceMissing now outcomes => some ⟨paused now outcomes c.store, some ⟨now, false⟩⟩
  else none

/-- A backup that has no manifest yet. -/
def Start (c : Watch) : Prop := c.store.manifest = none ∧ c.last = none

/-- A missing source is noticed soon after the last good run, and the pause gets to the disk unless the clock stands
anyway. -/
def Careful (c : Watch) : Turn → Prop
  | .synced _ => True
  | .sourceMissing now outcomes =>
    (∀ l ∈ c.last, l.looked = true → now - l.time ≤ clockGapSecs) ∧
      ((∀ o ∈ outcomes.take 2, o = .goes) ∨ ∀ m ∈ c.store.manifest, m.pausedSince ≠ 0)

instance (c : Watch) : ∀ t : Turn, Decidable (c.Careful t)
  | .synced _ => .isTrue trivial
  | .sourceMissing now outcomes => inferInstanceAs (Decidable ((∀ l ∈ c.last, l.looked = true → now - l.time ≤ clockGapSecs) ∧
      ((∀ o ∈ outcomes.take 2, o = .goes) ∨ ∀ m ∈ c.store.manifest, m.pausedSince ≠ 0)))

/-- From the last run to this one the clock goes on by their distance if Luna was looking, and stands otherwise. -/
def Advances (c : Watch) (t : Turn) (c' : Watch) : Prop :=
  ∀ l ∈ c.last, ∀ m ∈ c.store.manifest, ∃ m', c'.store.manifest = some m' ∧ m.clock l.time ≤ m'.clock t.now ∧
    m'.clock t.now - m.clock l.time = if l.looked = true ∧ t.now - l.time ≤ clockGapSecs then t.now - l.time else 0

end Watch

/-! ### What a run leaves in the manifest -/

/-- The fields the clock is read from. -/
structure SameClock (m m' : Manifest) : Prop where
  secs : m'.pausedSecs = m.pausedSecs
  since : m'.pausedSince = m.pausedSince
  okAt : m'.lastOkAt = m.lastOkAt

theorem SameClock.symm {m m' : Manifest} (h : SameClock m m') : SameClock m' m :=
  ⟨h.secs.symm, h.since.symm, h.okAt.symm⟩

theorem SameClock.trans {m m' m'' : Manifest} (h : SameClock m m') (h' : SameClock m' m'') : SameClock m m'' :=
  ⟨h'.secs.trans h.secs, h'.since.trans h.since, h'.okAt.trans h.okAt⟩

/-- The clock of the manifest in memory stays, and the one on the disk stays or becomes that one. -/
structure Ticks (r r' : Run) : Prop where
  memory : SameClock r.manifest r'.manifest
  stored : r'.store.manifest = r.store.manifest ∨ ∃ m, r'.store.manifest = some m ∧ SameClock r'.manifest m

theorem ticks_frame : Frame Ticks where
  refl _ := ⟨⟨rfl, rfl, rfl⟩, .inl rfl⟩
  trans r r' r'' h h' := by
    refine ⟨h.memory.trans h'.memory, ?_⟩
    rcases h'.stored with hsame | hnew
    · rcases h.stored with hsame' | ⟨m, hm, hclock⟩
      · exact .inl (hsame.trans hsame')
      · exact .inr ⟨m, hsame.trans hm, h'.memory.symm.trans hclock⟩
    · exact .inr hnew
  blind _ _ _ := ⟨⟨rfl, rfl, rfl⟩, .inl rfl⟩

section Ticking

variable (k : Target) (now : Int)

/-- Files are not the manifest. -/
theorem writes_ticks {f : Store → Except Stop Store} {events : Store → List Event}
    (hf : ∀ s s', f s = .ok s' → s'.manifest = s.manifest) : Keeps Ticks (writes f events) :=
  ticks_frame.writes fun r s hs => ⟨⟨rfl, rfl, rfl⟩, .inl (hf r.store s hs)⟩

theorem setManifest_ticks {f : Manifest → Manifest} (hf : ∀ m, SameClock m (f m)) : Keeps Ticks (setManifest f) :=
  fun r => ⟨hf r.manifest, .inl rfl⟩

theorem ticks_steps : ThinSteps k Ticks where
  toFrame := ticks_frame
  removes t rel := by
    have hframe := ticks_frame
    refine hframe.bind (hframe.relPlace k rel) fun place => hframe.bind hframe.get fun _ =>
      hframe.bind (writes_ticks fun s s' hs => ?_) fun _ => hframe.pure _
    rw [← ok.inj hs]
    exact (eraseVersion_files t place s).2.1
  forgets _ := setManifest_ticks fun _ => ⟨rfl, rfl, rfl⟩
  returns _ := setManifest_ticks fun _ => ⟨rfl, rfl, rfl⟩
  prunes hf := by
    refine writes_ticks fun s s' hs => ?_
    rw [← ok.inj hs]
    exact (hf s).2.1

theorem moveToVersion_ticks (place : List Text) : Keeps Ticks (writes (moveToVersion now place) fun _ => []) := by
  refine writes_ticks fun s s' hs => ?_
  obtain ⟨_, -, -, -, hmanifest⟩ := moveToVersion_ok hs
  exact hmanifest

theorem makeVersionParents_ticks (place : List Text) : Keeps Ticks (writes (makeVersionParents now place) fun _ => []) :=
  writes_ticks fun _ _ hs => (makeVersionParents_ok hs).2.2

theorem install_ticks (place : List Text) (copy : Copy) (replaces : Bool) :
    Keeps Ticks (install now place copy replaces) := by
  have hframe := ticks_frame
  refine hframe.onError (writes_ticks fun _ _ hs => (persist_ok hs).2.2) fun e =>
    hframe.bind (hframe.whenever _ (hframe.try' (writes_ticks fun s s' hs => ?_))) fun _ => hframe.throw _
  obtain ⟨_, -, -, -, hmanifest⟩ := moveFromVersion_ok hs
  exact hmanifest

theorem stageCopy_ticks (src : Source) : Keeps Ticks (stageCopy src) := by
  intro r
  unfold stageCopy
  split
  · exact ticks_frame.reads _ r
  · exact ticks_frame.refl r

theorem put_ticks (rel : Text) (src : Source) : Keeps Ticks (put k now rel src) := by
  have hframe := ticks_frame
  refine hframe.bind (hframe.relPlace k rel) fun place =>
    hframe.bind (writes_ticks fun _ _ hs => (makeParents_ok hs).2.2) fun _ => hframe.bind (hframe.reads _) fun found => ?_
  cases found with
  | none => exact hframe.bind (stageCopy_ticks src) fun _ => hframe.bind (install_ticks now place _ _) fun _ => hframe.pure _
  | some copy =>
    dsimp only
    split
    · exact hframe.pure _
    · exact hframe.bind (stageCopy_ticks src) fun _ => hframe.bind (makeVersionParents_ticks now place) fun _ =>
        hframe.bind (moveToVersion_ticks now place) fun _ => hframe.bind (install_ticks now place _ _) fun _ =>
          hframe.pure _

theorem remove_ticks (rel : Text) : Keeps Ticks (remove k now rel) := by
  have hframe := ticks_frame
  refine hframe.bind (hframe.relPlace k rel) fun place => hframe.bind (hframe.reads _) fun found => ?_
  cases found with
  | none => exact hframe.pure _
  | some copy =>
    exact hframe.bind (makeVersionParents_ticks now place) fun _ => hframe.bind (moveToVersion_ticks now place)
      fun _ => fun _ => ⟨⟨rfl, rfl, rfl⟩, .inl rfl⟩

/-- The manifest on the disk is then the one in memory. -/
theorem saveManifest_ticks : Keeps Ticks (saveManifest k now) := by
  refine (ticks_steps k).retryWithRoom now fun r => ?_
  have hread : (MonadState.get : Act Run) r = .ok r r := rfl
  rw [run_of_ok hread]
  obtain ⟨rest, ⟨s, hs, hrun⟩ | ⟨e, hrun⟩⟩ :=
    writes_run (fun s => .ok { s with manifest := some r.manifest }) (fun _ => []) r
  · rw [hrun, ← ok.inj hs]
    exact ⟨⟨rfl, rfl, rfl⟩, .inr ⟨r.manifest, rfl, ⟨rfl, rfl, rfl⟩⟩⟩
  · rw [hrun]
    exact ticks_frame.blind r r.outcome rest

theorem moveAside_ticks (olds : List Text) : Keeps Ticks (moveAside k now olds) := by
  have hframe := ticks_steps k
  induction olds with
  | nil => exact hframe.pure ()
  | cons old rest ih => exact hframe.bind (hframe.retryWithRoom now (remove_ticks k now old)) fun _ => ih

theorem save_ticks (rel : Text) (e : Entry) : Keeps Ticks (save k now rel e) := by
  have hframe := ticks_steps k
  unfold save
  cases e.source with
  | none => exact hframe.pure ()
  | some src =>
    refine hframe.onError (hframe.bind (hframe.retryWithRoom now (put_ticks k now rel src)) fun done =>
      hframe.bind (hframe.count _) fun _ => hframe.forgets rel) fun stop => ?_
    split
    · exact hframe.pure ()
    · exact hframe.throw _

theorem saveAll_ticks (wanted : List (Text × Entry)) : Keeps Ticks (saveAll k now wanted) := by
  have hframe := ticks_frame
  induction wanted with
  | nil => exact hframe.pure ()
  | cons w rest ih => exact hframe.bind (save_ticks k now w.1 w.2) fun _ => ih

theorem dropAll_ticks (deletions : List Text) : Keeps Ticks (dropAll k now deletions) := by
  have hframe := ticks_steps k
  induction deletions with
  | nil => exact hframe.pure ()
  | cons rel rest ih =>
    exact hframe.bind (hframe.retryWithRoom now (remove_ticks k now rel)) fun gone =>
      hframe.bind (hframe.whenever _ (hframe.count _)) fun _ => ih

/-- A save that goes through has the manifest of that time on the disk. -/
theorem saveManifest_stores {r r' : Run} (h : saveManifest k now r = .ok () r') :
    ∃ m, r'.store.manifest = some m ∧ SameClock r'.manifest m := by
  refine retry_ok (Q := fun _ r' => ∃ m, r'.store.manifest = some m ∧ SameClock r'.manifest m) (fun r a r' hrun => ?_) h
  have hread : (MonadState.get : Act Run) r = .ok r r := rfl
  rw [run_of_ok hread] at hrun
  obtain ⟨rest, ⟨s, hs, hrun'⟩ | ⟨e, hrun'⟩⟩ :=
    writes_run (fun s => .ok { s with manifest := some r.manifest }) (fun _ => []) r
  · rw [hrun', ← ok.inj hs] at hrun
    obtain ⟨-, rfl⟩ := EStateM.Result.ok.inj hrun
    exact ⟨r.manifest, rfl, ⟨rfl, rfl, rfl⟩⟩
  · rw [hrun'] at hrun
    cases hrun

/-- The last part of a run, from the saved manifest on. -/
theorem Ticks.keeps_stored {r r' : Run} (h : Ticks r r') (hs : ∃ m, r.store.manifest = some m ∧ SameClock r.manifest m) :
    ∃ m, r'.store.manifest = some m ∧ SameClock r'.manifest m := by
  obtain ⟨m, hm, hclock⟩ := hs
  rcases h.stored with hsame | hnew
  · exact ⟨m, hsame.trans hm, h.memory.symm.trans hclock⟩
  · exact hnew

/-- A step that keeps the clock, seen where it goes through. -/
theorem ticks_of_ok {α : Type} {x : Act α} {r r' : Run} {a : α} (hx : Keeps Ticks x) (h : x r = .ok a r') : Ticks r r' := by
  have hr := hx r
  rw [h] at hr
  exact hr

/-- The clock on the disk after a run that goes through: it was set going, and looked at now. -/
theorem syncFiles_stores {p : Plan} {current : List Text} {r r' : Run} (h : syncFiles k now p current r = .ok () r') :
    ∃ m, r'.store.manifest = some m ∧
      SameClock { (r.store.manifest.getD fresh).started now with lastOkAt := now } m := by
  obtain ⟨m, r₁, hread, h⟩ := bind_run h
  obtain ⟨hm, rest, rfl⟩ := (ticks_frame.reads_does _ r).2 m r₁ hread
  obtain rfl := ok.inj hm
  obtain ⟨_, r₂, hset, h⟩ := bind_run h
  obtain ⟨-, rfl⟩ := EStateM.Result.ok.inj hset
  obtain ⟨_, r₃, haside, h⟩ := bind_run h
  obtain ⟨_, r₄, hsaved, h⟩ := bind_run h
  obtain ⟨_, r₅, hcounted, h⟩ := bind_run h
  obtain ⟨_, r₆, hthinned, h⟩ := bind_run h
  obtain ⟨_, r₇, hstamped, h⟩ := bind_run h
  obtain ⟨-, rfl⟩ := EStateM.Result.ok.inj hstamped
  obtain ⟨_, r₈, hstored, h⟩ := bind_run h
  obtain ⟨_, r₉, hdropped, hlast⟩ := bind_run h
  have hframe := ticks_frame
  have h₃ := ticks_of_ok (hframe.whenever _ (moveAside_ticks k now _)) haside
  have h₄ := ticks_of_ok (saveAll_ticks k now _) hsaved
  have h₅ := ticks_of_ok (hframe.count _) hcounted
  have h₆ := ticks_of_ok ((ticks_steps k).thin now) hthinned
  have h₈ := ticks_of_ok (saveManifest_ticks k now) hstored
  have h₉ := ticks_of_ok (dropAll_ticks k now _) hdropped
  have h₁₀ := ticks_of_ok (hframe.whenever _ (saveManifest_ticks k now)) hlast
  have hbefore := ((h₃.memory.trans h₄.memory).trans h₅.memory).trans h₆.memory
  have hafter := (h₈.memory.trans h₉.memory).trans h₁₀.memory
  obtain ⟨m, hm, hclock⟩ := h₁₀.keeps_stored (h₉.keeps_stored (saveManifest_stores k now hstored))
  have hend := hafter.trans hclock
  exact ⟨m, hm, hend.secs.trans hbefore.secs, hend.since.trans hbefore.since, hend.okAt⟩

theorem syncTarget_stores {i : Sync} {s : Store} {r : Run} (h : i.result k [] s = .ok true r) :
    ∃ m, r.store.manifest = some m ∧
      SameClock { (s.manifest.getD fresh).started i.now with lastOkAt := i.now } m := by
  obtain ⟨current, r₁, hread, h⟩ := bind_run h
  obtain ⟨-, rest, rfl⟩ := (ticks_frame.reads_does _ _).2 current r₁ hread
  dsimp only at h
  split at h
  · cases h
  · obtain ⟨_, r₂, hcounted, h⟩ := bind_run h
    obtain ⟨-, rfl⟩ := EStateM.Result.ok.inj hcounted
    obtain ⟨_, r₃, hfiles, h⟩ := bind_run h
    obtain ⟨-, rfl⟩ := EStateM.Result.ok.inj h
    exact syncFiles_stores k i.now hfiles

end Ticking

/-! ### The clock over a run of runs -/

/-- The manifest is read and written without trouble. -/
theorem paused_goes (now : Int) (s : Store) (h : ∀ o ∈ outcomes.take 2, o = .goes) :
    (paused now outcomes s).manifest = s.manifest.map fun m => m.pause now := by
  obtain ⟨current, versions, manifest⟩ := s
  rcases outcomes with _ | ⟨o, _ | ⟨o', rest⟩⟩
  · cases manifest <;> rfl
  · obtain rfl := h o (by simp)
    cases manifest <;> rfl
  · obtain rfl := h o (by simp)
    obtain rfl := h o' (by simp)
    cases manifest <;> rfl

theorem stateOf_try' (x : Act Unit) (r : Run) : stateOf (try' x r) = stateOf (x r) := by
  unfold try' onError
  cases x r with
  | ok a r' => rfl
  | error e r' => cases e <;> rfl

/-- A clock that stands is not touched, whatever the disk does. -/
theorem paused_stands {s : Store} (now : Int) (outcomes : List Outcome) (h : ∀ m ∈ s.manifest, m.pausedSince ≠ 0) :
    (paused now outcomes s).manifest = s.manifest := by
  rw [paused, pauseClock, stateOf_try']
  obtain ⟨rest, ⟨m, hm, hread⟩ | ⟨e, hread⟩⟩ := reads_run (fun s => .ok s.manifest)
    (⟨s, fresh, ⟨[], 0, 0, 0⟩, outcomes, []⟩ : Run)
  · rw [run_of_ok hread]
    obtain rfl := ok.inj hm
    cases hs : s.manifest with
    | none => exact hs
    | some m =>
      dsimp only [hs]
      obtain ⟨rest', ⟨s', hs', hwrite⟩ | ⟨e, hwrite⟩⟩ := writes_run
        (fun s => .ok { s with manifest := some (m.pause now) }) (fun _ => [])
        (⟨s, fresh, ⟨[], 0, 0, 0⟩, rest, []⟩ : Run)
      · rw [hwrite, ← ok.inj hs']
        show some (m.pause now) = some m
        rw [pause, if_neg (h m hs)]
      · rw [hwrite]
        exact hs
  · rw [run_of_error hread]
    rfl

theorem paused_manifest {s : Store} (now : Int)
    (h : (∀ o ∈ outcomes.take 2, o = .goes) ∨ ∀ m ∈ s.manifest, m.pausedSince ≠ 0) :
    (paused now outcomes s).manifest = s.manifest.map fun m => m.pause now := by
  rcases h with hgoes | hstands
  · exact paused_goes now s hgoes
  · rw [paused_stands now outcomes hstands]
    cases hm : s.manifest with
    | none => rfl
    | some m => rw [map_some, pause, if_neg (hstands m hm)]

namespace Manifest

variable {m : Manifest} {now : Int}

theorem clock_running (h : m.pausedSince = 0) : m.clock now = now - m.pausedSecs := by
  simp [clock, h]

theorem clock_frozen (h : 0 < m.pausedSince) (hle : m.pausedSince ≤ now) : m.clock now = m.pausedSince - m.pausedSecs := by
  rw [clock]
  omega

/-- A run that follows a good one. -/
theorem started_running (h : m.pausedSince = 0) (hpos : 0 < m.lastOkAt) : (m.started now).pausedSince = 0 ∧
    (m.started now).pausedSecs = m.pausedSecs + if clockGapSecs < now - m.lastOkAt then now - m.lastOkAt else 0 := by
  unfold started resume
  by_cases hgap : clockGapSecs < now - m.lastOkAt
  · simp [h, hpos, hgap]
  · simp [h, hgap]

/-- A run that ends a freeze. -/
theorem started_frozen (h : 0 < m.pausedSince) (hle : m.pausedSince ≤ now) : (m.started now).pausedSince = 0 ∧
    (m.started now).pausedSecs = m.pausedSecs + (now - m.pausedSince) := by
  have hne : m.pausedSince ≠ 0 := by omega
  have hmax : max (now - m.pausedSince) 0 = now - m.pausedSince := by omega
  unfold started resume
  simp [hne, hmax]

end Manifest

namespace Watch

variable {k : Target} {c c' : Watch} {t : Turn}

/-- After a good run the clock goes from its time on; otherwise it stands. -/
structure Inv (c : Watch) : Prop where
  start : c.last = none → c.store.manifest = none
  positive : ∀ l ∈ c.last, 0 < l.time
  running : ∀ l ∈ c.last, ∀ m ∈ c.store.manifest, l.looked = true → m.pausedSince = 0 ∧ m.lastOkAt = l.time
  frozen : ∀ l ∈ c.last, ∀ m ∈ c.store.manifest, l.looked = false → 0 < m.pausedSince ∧ m.pausedSince ≤ l.time

theorem Start.inv (h : c.Start) : c.Inv where
  start _ := h.1
  positive l hl := by
    rw [h.2] at hl
    cases hl
  running l hl := by
    rw [h.2] at hl
    cases hl
  frozen l hl := by
    rw [h.2] at hl
    cases hl

/-- The clock on the disk at the last run. -/
theorem Inv.read (h : c.Inv) {l : Last} (hl : c.last = some l) {m : Manifest} (hm : c.store.manifest = some m) :
    m.clock l.time = (if l.looked then l.time else m.pausedSince) - m.pausedSecs := by
  cases hlooked : l.looked with
  | true => exact clock_running (h.running l hl m hm hlooked).1
  | false =>
    obtain ⟨hpos, hle⟩ := h.frozen l hl m hm hlooked
    exact clock_frozen hpos hle

/-- A run that brings the backup up to date. -/
theorem Inv.synced (h : c.Inv) {i : Sync} {r : Run} (hpos : 0 < i.now) (htime : ∀ l ∈ c.last, l.time ≤ i.now)
    (hr : i.result k [] c.store = .ok true r) :
    Inv ⟨r.store, some ⟨i.now, true⟩⟩ ∧ c.Advances (.synced i) ⟨r.store, some ⟨i.now, true⟩⟩ := by
  obtain ⟨m', hm', hsecs, hsince, hok⟩ := syncTarget_stores k hr
  have hgoes : m'.pausedSince = 0 := by
    rw [hsince]
    cases hm : c.store.manifest with
    | none => rfl
    | some m =>
      cases hl : c.last with
      | none =>
        rw [h.start hl] at hm
        cases hm
      | some l =>
        cases hlooked : l.looked with
        | true =>
          obtain ⟨hzero, hlast⟩ := h.running l hl m hm hlooked
          exact (started_running hzero (hlast ▸ h.positive l hl)).1
        | false =>
          obtain ⟨hfrozen, hle⟩ := h.frozen l hl m hm hlooked
          exact (started_frozen hfrozen (hle.trans (htime l hl))).1
  refine ⟨⟨fun hnone => (nomatch hnone), ?_, ?_, ?_⟩, fun l hl m hm => ⟨m', hm', ?_⟩⟩
  · rintro l ⟨⟩
    exact hpos
  · rintro l ⟨⟩ m hm -
    obtain rfl : m' = m := some.inj (hm'.symm.trans hm)
    exact ⟨hgoes, hok⟩
  · rintro l ⟨⟩ m hm hfalse
    cases hfalse
  · have hread := h.read hl hm
    have hread' : m'.clock i.now = i.now - m'.pausedSecs := clock_running hgoes
    have hle := htime l hl
    have hm : c.store.manifest = some m := hm
    rw [hm] at hsecs
    show m.clock l.time ≤ m'.clock i.now ∧ m'.clock i.now - m.clock l.time = _
    rw [hread', hread, hsecs]
    cases hlooked : l.looked with
    | true =>
      obtain ⟨hzero, hlast⟩ := h.running l hl m hm hlooked
      have hstarted : (m.started i.now).pausedSecs =
          m.pausedSecs + if clockGapSecs < i.now - m.lastOkAt then i.now - m.lastOkAt else 0 :=
        (started_running hzero (hlast ▸ h.positive l hl)).2
      show _ ≤ i.now - (m.started i.now).pausedSecs ∧ i.now - (m.started i.now).pausedSecs - _ = _
      rw [hstarted]
      simp only [Turn.now, if_true, true_and]
      split <;> split <;> omega
    | false =>
      obtain ⟨hfrozen, hle'⟩ := h.frozen l hl m hm hlooked
      have hstarted : (m.started i.now).pausedSecs = m.pausedSecs + (i.now - m.pausedSince) :=
        (started_frozen hfrozen (hle'.trans hle)).2
      show _ ≤ i.now - (m.started i.now).pausedSecs ∧ i.now - (m.started i.now).pausedSecs - _ = _
      simp
      omega

/-- A run that finds the source missing. -/
theorem Inv.sourceMissing (h : c.Inv) {now : Int} (hpos : 0 < now)
    (htime : ∀ l ∈ c.last, l.time ≤ now) (hcareful : c.Careful (.sourceMissing now outcomes)) :
    Inv ⟨paused now outcomes c.store, some ⟨now, false⟩⟩ ∧
      c.Advances (.sourceMissing now outcomes) ⟨paused now outcomes c.store, some ⟨now, false⟩⟩ := by
  have hmanifest := paused_manifest now hcareful.2
  have hfrozen : ∀ m ∈ c.store.manifest, 0 < (m.pause now).pausedSince ∧ (m.pause now).pausedSince ≤ now := by
    intro m hm
    cases hl : c.last with
    | none =>
      rw [h.start hl] at hm
      cases hm
    | some l =>
      have hle := htime l hl
      unfold pause
      cases hlooked : l.looked with
      | true =>
        rw [if_pos (h.running l hl m hm hlooked).1]
        exact ⟨hpos, Int.le_refl now⟩
      | false =>
        obtain ⟨hsince, hbefore⟩ := h.frozen l hl m hm hlooked
        rw [if_neg (by omega)]
        exact ⟨hsince, hbefore.trans hle⟩
  refine ⟨⟨fun hnone => (nomatch hnone), ?_, ?_, ?_⟩, fun l hl m hm => ⟨m.pause now, ?_, ?_⟩⟩
  · rintro l ⟨⟩
    exact hpos
  · rintro l ⟨⟩ m hm htrue
    cases htrue
  · rintro l ⟨⟩ m' hm' -
    obtain ⟨m, hm, rfl⟩ := map_eq_some_iff.mp (hmanifest.symm.trans hm')
    exact hfrozen m hm
  · have hm : c.store.manifest = some m := hm
    rw [hm] at hmanifest
    exact hmanifest
  · obtain ⟨hsince, hbefore⟩ := hfrozen m hm
    have hread := h.read hl hm
    have hread' : (m.pause now).clock now = (m.pause now).pausedSince - (m.pause now).pausedSecs :=
      clock_frozen hsince hbefore
    have hle := htime l hl
    show m.clock l.time ≤ (m.pause now).clock now ∧ (m.pause now).clock now - m.clock l.time =
      if l.looked = true ∧ now - l.time ≤ clockGapSecs then now - l.time else 0
    rw [hread', hread]
    unfold pause
    cases hlooked : l.looked with
    | true =>
      have hnear := hcareful.1 l hl hlooked
      rw [if_pos (h.running l hl m hm hlooked).1]
      simp [hnear]
      omega
    | false =>
      have hstands : ¬ m.pausedSince = 0 := by
        have := (h.frozen l hl m hm hlooked).1
        omega
      rw [if_neg hstands]
      simp

/-- What one run does to the clock. -/
theorem Inv.step (h : c.Inv) (hcareful : c.Careful t) (hs : c.step k t = some c') : c'.Inv ∧ c.Advances t c' := by
  unfold Watch.step at hs
  split at hs
  · next htime =>
      cases t with
      | synced i =>
        dsimp only at hs
        split at hs
        · next r hr =>
            cases hs
            exact h.synced htime.1 htime.2 hr
        · cases hs
      | sourceMissing now outcomes =>
        cases hs
        exact h.sourceMissing htime.1 htime.2 hcareful
  · cases hs

/-- The clock of a backup, from its first run on: between a careful run and the last one before it the clock goes on by
their distance if the last one was good and not long ago, and stands otherwise. -/
theorem advances_of_careful {turns : List Turn} {c₀ : Watch} (h : c₀.Start) (hcareful : Runs.Meets (step k) Careful turns c₀)
    (hr : Runs.run (step k) turns c₀ = some c) (ht : c.Careful t) (hs : c.step k t = some c') : c.Advances t c' :=
  (Inv.step (Runs.keeps (fun _ _ _ hi ha hs => (Inv.step hi ha hs).1) h.inv hcareful hr) ht hs).2

def fresh : Watch := ⟨Store.empty, none⟩

/-- Two good runs, one of them a day late, and three runs without the source, of which the last one cannot write. -/
def month : List Turn :=
  [.synced (saysA 5 [1]), .synced (saysA 86405 [2, 2]), .sourceMissing 90005 [], .sourceMissing 200000 [],
    .sourceMissing 300000 [.goes, .fails]]

theorem month_advances : ∃ c c', Runs.run (step plainDrive) month fresh = some c ∧
    c.step plainDrive (.synced (saysA 2592000 [2, 2])) = some c' ∧ c.Advances (.synced (saysA 2592000 [2, 2])) c' ∧
    c.store.manifest.map (fun m => m.clock 300000) = some 3605 ∧
    c'.store.manifest.map (fun m => m.clock 2592000) = some 3605 := by
  have hrun : (Runs.run (step plainDrive) month fresh).bind (fun c =>
      (c.step plainDrive (.synced (saysA 2592000 [2, 2]))).map fun c' =>
        (c.store.manifest.map fun m => m.clock 300000, c'.store.manifest.map fun m => m.clock 2592000)) =
      some (some 3605, some 3605) := by decide +kernel
  obtain ⟨c, hc, hstep⟩ := bind_eq_some_iff.mp hrun
  obtain ⟨c', hc', hreads⟩ := map_eq_some_iff.mp hstep
  obtain ⟨hread, hread'⟩ := Prod.mk.inj hreads
  exact ⟨c, c', hc, hc', advances_of_careful (k := plainDrive) ⟨rfl, rfl⟩ (by decide +kernel) hc trivial hc', hread, hread'⟩

/-- The source is missing three hours after a good run, and the three hours count. -/
theorem late_pause_counts : ∃ c c', Runs.run (step plainDrive) [.synced (saysA 5 [1])] fresh = some c ∧
    c.step plainDrive (.sourceMissing 10805 []) = some c' ∧ ¬ c.Advances (.sourceMissing 10805 []) c' := by
  have hrun : (Runs.run (step plainDrive) [.synced (saysA 5 [1])] fresh).bind (fun c =>
      (c.step plainDrive (.sourceMissing 10805 [])).map fun c' =>
        (c.last.map fun l => (l.time, l.looked), c.store.manifest.map fun m => m.clock 5,
          c'.store.manifest.map fun m => m.clock 10805)) = some (some (5, true), some 5, some 10805) := by decide +kernel
  obtain ⟨c, hc, hstep⟩ := bind_eq_some_iff.mp hrun
  obtain ⟨c', hc', hreads⟩ := map_eq_some_iff.mp hstep
  obtain ⟨hlast, hreads'⟩ := Prod.mk.inj hreads
  obtain ⟨hread, hread'⟩ := Prod.mk.inj hreads'
  refine ⟨c, c', hc, hc', fun hadvances => ?_⟩
  obtain ⟨l, hl, hat⟩ := map_eq_some_iff.mp hlast
  obtain ⟨htime, hlooked⟩ := Prod.mk.inj hat
  obtain ⟨m, hm, hclock⟩ := map_eq_some_iff.mp hread
  obtain ⟨m', hm', hclock'⟩ := map_eq_some_iff.mp hread'
  obtain ⟨m'', hm'', -, hdistance⟩ := hadvances l hl m hm
  obtain rfl : m' = m'' := some.inj (hm'.symm.trans hm'')
  have hstands : m'.clock 10805 - m.clock l.time = if l.looked = true ∧ 10805 - l.time ≤ clockGapSecs then 10805 - l.time else 0 :=
    hdistance
  rw [htime, hlooked, hclock, hclock'] at hstands
  revert hstands
  decide

end Watch

end LibreServ.DriveBackup
