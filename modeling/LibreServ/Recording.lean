import LibreServ.Access

/-! How a backup run to a drive is recorded: the loop at the end of `run` in `backup/drive_backup.rs`, next to the
moves and grant changes of `drive_backup/ops.rs`. The row of a backup is in the database, behind a lock; what a
backup says of its source and of the people who may see it is in the manifest on the backup drive, which is read and
written without the lock by the run and under it by the others. Every disk write goes through. -/

namespace LibreServ.Files

structure Manifest where
  sourceDriveId : Text
  sourceDriveLabel : Text
  sourcePath : Path
  access : AccessList
  lastOkAt : Int
  deriving DecidableEq

/-- What a run holds the manifest to say. -/
structure ManifestState where
  drive : Text
  label : Text
  path : Path
  access : AccessList
  deriving DecidableEq

/-- What a writer under the lock makes of the manifest: `refresh_access` the list, `move_inner` the source. -/
inductive Change where
  | access (a : AccessList)
  | source (drive label : Text) (path : Path)
  deriving DecidableEq

def Change.apply (m : Manifest) : Change → Manifest
  | .access a => { m with access := a }
  | .source drive label path => { m with sourceDriveId := drive, sourceDriveLabel := label, sourcePath := path }

/-- The writer that has the lock: about to read the manifest, or about to write it back. -/
inductive Holder where
  | reading (change : Change)
  | writing (change : Change) (m : Manifest)
  deriving DecidableEq

/-- Where the run stands. It enters the loop with the last save of `sync_target`. -/
inductive RunPhase where
  | reading (state : ManifestState)
  | writing (state : ManifestState) (m : Manifest)
  | check (inManifest : ManifestState)
  | recorded
  deriving DecidableEq

/-- `repair_manifest`, once the manifest has been read. -/
def repaired (state : ManifestState) (m : Manifest) : Manifest :=
  { m with
    sourceDriveId := state.drive
    sourceDriveLabel := state.label
    sourcePath := state.path
    access := state.access }

structure Recording where
  db : Db
  labels : Text → Text
  row : ProtectionRow
  /-- The row's `access_json`. -/
  accessJson : AccessList
  active : Bool
  manifest : Manifest
  holder : Option Holder
  run : RunPhase

inductive RecordEvent where
  /-- A grant on the source's drive changed, and `refresh_access` takes it from there. -/
  | grants (db : Db)
  /-- The source moved, with everything in the database that moves along. -/
  | move (db : Db) (drive : Text) (path : Path)
  | relabel (labels : Text → Text)
  /-- The writer that has the lock goes on. -/
  | hold
  /-- The run goes on. -/
  | next

def labelOrDefault (label : Text) : Text := if trim label = [] then "Unnamed drive".toList else label

namespace Recording

variable (s : Recording)

/-- The list the row should carry now. -/
def fresh : AccessList := s.db.forRow s.row

def freshState : ManifestState where
  drive := s.row.sourceDrive
  label := labelOrDefault (s.labels s.row.sourceDrive)
  path := s.row.sourcePath
  access := s.fresh

/-- The run's next section. The check is made under the lock. -/
def advance : Recording :=
  match s.run with
  | .reading state => { s with run := .writing state s.manifest }
  | .writing state m => { s with manifest := repaired state m, run := .check state }
  | .check inManifest =>
    if s.holder.isSome then s
    else if s.freshState = inManifest then { s with accessJson := inManifest.access, run := .recorded }
    else { s with run := .reading s.freshState }
  | .recorded => s

def movedTo (db : Db) (drive : Text) (path : Path) : Recording :=
  { s with db := db, row := { s.row with sourceDrive := drive, sourcePath := path } }

def step : RecordEvent → Recording
  | .grants db =>
    if s.holder.isSome ∨ s.active = false then s
    else
      let a := db.forRow s.row
      if a = s.accessJson then { s with db := db }
      else { s with db := db, accessJson := a, holder := some (.reading (.access a)) }
  | .move db drive path =>
    if s.holder.isSome then s
    else { s.movedTo db drive path with holder := some (.reading (.source drive (s.labels drive) path)) }
  | .relabel labels => if s.holder.isSome then s else { s with labels := labels }
  | .hold =>
    match s.holder with
    | none => s
    | some (.reading change) => { s with holder := some (.writing change s.manifest) }
    | some (.writing change m) =>
      { s with
        manifest := change.apply m
        holder := none
        active := s.active && (match change with
          | .access _ => true
          | .source _ _ _ => (s.db.stopReason s.row).isNone) }
  | .next => s.advance

def runEvents (events : List RecordEvent) : Recording := events.foldl step s

/-- The manifest names the row's source and the list the row should carry. -/
def Agrees : Prop :=
  s.manifest.sourceDriveId = s.row.sourceDrive ∧ s.manifest.sourcePath = s.row.sourcePath ∧
    s.manifest.access = s.fresh

/-- Does the row say what the run last wrote? -/
def Backs (state : ManifestState) : Prop :=
  s.row.sourceDrive = state.drive ∧ s.row.sourcePath = state.path ∧ s.fresh = state.access

/-- The moments at which nothing goes wrong. The run does not write the manifest between another writer's reading it
and writing it back. And a move does not bring back, from somewhere else, the source and list the run wrote last
and has yet to check, nor change the list once the run is recorded. -/
def Orderly : RecordEvent → Prop
  | .next => ∀ state m, s.run = .writing state m → ∀ change m', s.holder ≠ some (.writing change m')
  | .move db drive path =>
    (∀ state, s.run = .check state → (s.movedTo db drive path).Backs state → s.Backs state) ∧
      (s.run = .recorded → (s.movedTo db drive path).fresh = s.fresh)
  | _ => True

/-! ### The invariant -/

/-- The run has read the row and is about to save what it says. -/
def Entering : Prop := s.holder = none ∧ ∃ state m, s.run = .writing state m

def Holder.change : Holder → Change
  | .reading change => change
  | .writing change _ => change

/-- The source the manifest names. -/
def NamesSource (drive : Text) (path : Path) : Prop :=
  s.manifest.sourceDriveId = drive ∧ s.manifest.sourcePath = path

/-- Who has the lock is changing the source. -/
def Moving : Prop := ∃ h drive label path, s.holder = some h ∧ Holder.change h = .source drive label path

/-- Who has the lock is changing the list. -/
def Refreshing : Prop := ∃ h a, s.holder = some h ∧ Holder.change h = .access a

/-- What a writer under the lock knows. -/
structure Held (s : Recording) : Prop where
  access : ∀ h a, s.holder = some h → Holder.change h = .access a → a = s.accessJson ∧ a = s.fresh
  source : ∀ h drive label path, s.holder = some h → Holder.change h = .source drive label path →
    drive = s.row.sourceDrive ∧ path = s.row.sourcePath

/-- What is so between the run's write of `state` and its check. -/
structure Checking (s : Recording) (state : ManifestState) : Prop where
  read : ∀ change m, s.holder = some (.writing change m) → s.manifest = m
  source : ¬ s.Moving → s.NamesSource state.drive state.path ∨ s.NamesSource s.row.sourceDrive s.row.sourcePath
  access : ¬ s.Refreshing → s.manifest.access = state.access ∨ s.manifest.access = s.accessJson
  backed : ¬ s.Refreshing → s.Backs state → s.manifest.access = state.access

/-- What is so once the run is recorded. -/
structure Settled (s : Recording) : Prop where
  read : ∀ change m, s.holder = some (.writing change m) → s.manifest = m
  source : ¬ s.Moving → s.NamesSource s.row.sourceDrive s.row.sourcePath
  access : ¬ s.Refreshing → s.manifest.access = s.accessJson
  fresh : s.accessJson = s.fresh

structure Inv (s : Recording) : Prop where
  held : Held s
  checking : ∀ state, s.run = .check state → Checking s state
  settled : s.run = .recorded → Settled s

theorem Entering.inv (h : s.Entering) : Inv s := by
  obtain ⟨hfree, state, m, hrun⟩ := h
  refine ⟨⟨?_, ?_⟩, ?_, ?_⟩
  · intro h a hh
    rw [hfree] at hh
    cases hh
  · intro h drive label path hh
    rw [hfree] at hh
    cases hh
  · intro state' hcheck
    rw [hrun] at hcheck
    cases hcheck
  · intro hrec
    rw [hrun] at hrec
    cases hrec

variable {s}

theorem not_moving_of_free (h : s.holder = none) : ¬ s.Moving := by
  rintro ⟨w, drive, label, path, hw, -⟩
  rw [h] at hw
  cases hw

theorem not_refreshing_of_free (h : s.holder = none) : ¬ s.Refreshing := by
  rintro ⟨w, a, hw, -⟩
  rw [h] at hw
  cases hw

theorem not_moving_of_access {w : Holder} {a : AccessList} (hw : s.holder = some w) (hchange : Holder.change w = .access a) :
    ¬ s.Moving := by
  rintro ⟨w', drive, label, path, hw', hchange'⟩
  rw [hw] at hw'
  cases hw'
  rw [hchange] at hchange'
  cases hchange'

theorem not_refreshing_of_source {w : Holder} {drive label : Text} {path : Path} (hw : s.holder = some w)
    (hchange : Holder.change w = .source drive label path) : ¬ s.Refreshing := by
  rintro ⟨w', a, hw', hchange'⟩
  rw [hw] at hw'
  cases hw'
  rw [hchange] at hchange'
  cases hchange'

theorem free_of_not_isSome (h : ¬ s.holder.isSome) : s.holder = none := by simpa using h

theorem Inv.agrees (h : Inv s) (hrec : s.run = .recorded) (hfree : s.holder = none) : s.Agrees := by
  have hs := h.settled hrec
  obtain ⟨hdrive, hpath⟩ := hs.source (not_moving_of_free hfree)
  exact ⟨hdrive, hpath, (hs.access (not_refreshing_of_free hfree)).trans hs.fresh⟩

/-! #### The run's sections -/

theorem Inv.write (h : Inv s) {state : ManifestState} {m : Manifest}
    (horder : ∀ change m', s.holder ≠ some (.writing change m')) :
    Inv { s with manifest := repaired state m, run := .check state } where
  held := ⟨h.held.access, h.held.source⟩
  checking := by
    intro state' hcheck
    cases hcheck
    exact {
      read := fun change m' hw => absurd hw (horder change m')
      source := fun _ => .inl ⟨rfl, rfl⟩
      access := fun _ => .inl rfl
      backed := fun _ _ => rfl }
  settled := fun hrec => by cases hrec

/-- The check passes only if the manifest says what the row does. -/
theorem Inv.record (h : Inv s) {state : ManifestState} (hrun : s.run = .check state) (hfree : s.holder = none)
    (hsame : s.freshState = state) : Inv { s with accessJson := state.access, run := .recorded } := by
  subst hsame
  have hc := h.checking _ hrun
  have hnames : s.NamesSource s.row.sourceDrive s.row.sourcePath := (hc.source (not_moving_of_free hfree)).elim id id
  have haccess : s.manifest.access = s.fresh := hc.backed (not_refreshing_of_free hfree) ⟨rfl, rfl, rfl⟩
  have hnone : ∀ w, s.holder ≠ some w := by
    intro w hw
    rw [hfree] at hw
    cases hw
  exact {
    held := ⟨fun w _ hw => absurd hw (hnone w), fun w _ _ _ hw => absurd hw (hnone w)⟩
    checking := fun state' hcheck => by cases hcheck
    settled := fun _ =>
      { read := fun change m hw => absurd hw (hnone _)
        source := fun _ => hnames
        access := fun _ => haccess
        fresh := rfl } }

theorem Inv.goTo (h : Inv s) {phase : RunPhase} (hcheck : ∀ state, phase ≠ .check state) (hrec : phase ≠ .recorded) :
    Inv { s with run := phase } where
  held := ⟨h.held.access, h.held.source⟩
  checking := fun state hrun => absurd hrun (hcheck state)
  settled := fun hrun => absurd hrun hrec

theorem Inv.advance (h : Inv s) (horder : s.Orderly .next) : Inv s.advance := by
  unfold Recording.advance
  split
  · exact h.goTo (by simp) (by simp)
  · next state m hrun => exact h.write (horder state m hrun)
  · next state hrun =>
      split
      · exact h
      · next hfree =>
          split
          · next hsame => exact h.record hrun (free_of_not_isSome hfree) hsame
          · exact h.goTo (by simp) (by simp)
  · exact h

/-! #### The other writers -/

section

variable (h : Inv s)

include h

/-- The writer with the lock reads: the manifest is what it has in hand until it writes. -/
theorem Inv.holdRead {change : Change} (hheld : s.holder = some (.reading change)) :
    Inv { s with holder := some (.writing change s.manifest) } := by
  have hmoving : Recording.Moving { s with holder := some (.writing change s.manifest) } ↔ s.Moving := by
    constructor
    · rintro ⟨w, drive, label, path, hw, hchange⟩
      cases hw
      exact ⟨_, drive, label, path, hheld, hchange⟩
    · rintro ⟨w, drive, label, path, hw, hchange⟩
      rw [hheld] at hw
      cases hw
      exact ⟨_, drive, label, path, rfl, hchange⟩
  have hrefreshing : Recording.Refreshing { s with holder := some (.writing change s.manifest) } ↔ s.Refreshing := by
    constructor
    · rintro ⟨w, a, hw, hchange⟩
      cases hw
      exact ⟨_, a, hheld, hchange⟩
    · rintro ⟨w, a, hw, hchange⟩
      rw [hheld] at hw
      cases hw
      exact ⟨_, a, rfl, hchange⟩
  exact {
    held :=
      { access := by
          intro w a hw hchange
          cases hw
          exact h.held.access _ a hheld hchange
        source := by
          intro w drive label path hw hchange
          cases hw
          exact h.held.source _ drive label path hheld hchange }
    checking := by
      intro state hrun
      have hc := h.checking state hrun
      exact {
        read := fun change' m hw => by cases hw; rfl
        source := fun hm => hc.source (fun hm' => hm (hmoving.mpr hm'))
        access := fun hr => hc.access (fun hr' => hr (hrefreshing.mpr hr'))
        backed := fun hr hb => hc.backed (fun hr' => hr (hrefreshing.mpr hr')) hb }
    settled := by
      intro hrun
      have hs := h.settled hrun
      exact {
        read := fun change' m hw => by cases hw; rfl
        source := fun hm => hs.source (fun hm' => hm (hmoving.mpr hm'))
        access := fun hr => hs.access (fun hr' => hr (hrefreshing.mpr hr'))
        fresh := hs.fresh } }

/-- The writer with the lock writes its change back and lets go. -/
theorem Inv.holdWrite {change : Change} {m : Manifest} (hheld : s.holder = some (.writing change m)) (active : Bool) :
    Inv { s with manifest := change.apply m, holder := none, active := active } := by
  have hnone : ∀ w, (none : Option Holder) ≠ some w := fun w hw => by cases hw
  refine {
    held := ⟨fun w _ hw => absurd hw (hnone w), fun w _ _ _ hw => absurd hw (hnone w)⟩
    checking := ?_
    settled := ?_ }
  · intro state hrun
    have hc := h.checking state hrun
    have hm := hc.read change m hheld
    refine {
      read := fun _ _ hw => absurd hw (hnone _)
      source := fun _ => ?_
      access := fun _ => ?_
      backed := fun _ hb => ?_ }
    · cases change with
      | access a =>
        subst hm
        exact hc.source (not_moving_of_access hheld rfl)
      | source drive label path => exact .inr (h.held.source _ drive label path hheld rfl)
    · cases change with
      | access a => exact .inr (h.held.access _ a hheld rfl).1
      | source drive label path =>
        subst hm
        exact hc.access (not_refreshing_of_source hheld rfl)
    · cases change with
      | access a => exact (h.held.access _ a hheld rfl).2.trans hb.2.2
      | source drive label path =>
        subst hm
        exact hc.backed (not_refreshing_of_source hheld rfl) hb
  · intro hrun
    have hs := h.settled hrun
    have hm := hs.read change m hheld
    refine { read := fun _ _ hw => absurd hw (hnone _), source := fun _ => ?_, access := fun _ => ?_, fresh := hs.fresh }
    · cases change with
      | access a =>
        subst hm
        exact hs.source (not_moving_of_access hheld rfl)
      | source drive label path => exact h.held.source _ drive label path hheld rfl
    · cases change with
      | access a => exact (h.held.access _ a hheld rfl).1
      | source drive label path =>
        subst hm
        exact hs.access (not_refreshing_of_source hheld rfl)

variable (hfree : s.holder = none)

include hfree

/-- The list is what it was: nothing needs to be saved. -/
theorem Inv.sameList {db : Db} (hsame : db.forRow s.row = s.accessJson) :
    Inv { s with db := db } := by
  have hnone : ∀ w, s.holder ≠ some w := by
    intro w hw
    rw [hfree] at hw
    cases hw
  exact {
    held := ⟨fun w _ hw => absurd hw (hnone w), fun w _ _ _ hw => absurd hw (hnone w)⟩
    checking := by
      intro state hrun
      have hc := h.checking state hrun
      refine { read := hc.read, source := hc.source, access := hc.access, backed := fun _ hb => ?_ }
      -- the run's list is the row's list, and the manifest holds one of the two
      have hrow : s.accessJson = state.access := hsame.symm.trans hb.2.2
      rcases hc.access (not_refreshing_of_free hfree) with hstate | hjson
      · exact hstate
      · exact hjson.trans hrow
    settled := by
      intro hrun
      have hs := h.settled hrun
      exact { read := hs.read, source := hs.source, access := hs.access, fresh := hsame.symm } }

/-- `refresh_access` saves the new list in the row and sets out to save it in the manifest. -/
theorem Inv.newList (db : Db) :
    Inv { s with
      db := db
      accessJson := db.forRow s.row
      holder := some (.reading (.access (db.forRow s.row))) } := by
  have hnot : ¬ s.Moving := not_moving_of_free hfree
  have hrefreshing : Recording.Refreshing { s with
      db := db
      accessJson := db.forRow s.row
      holder := some (.reading (.access (db.forRow s.row))) } := ⟨_, _, rfl, rfl⟩
  exact {
    held :=
      { access := by
          intro w a hw hchange
          cases hw
          cases hchange
          exact ⟨rfl, rfl⟩
        source := by
          intro w drive label path hw hchange
          cases hw
          cases hchange }
    checking := by
      intro state hrun
      have hc := h.checking state hrun
      exact {
        read := fun change m hw => by cases hw
        source := fun _ => hc.source hnot
        access := fun hr => absurd hrefreshing hr
        backed := fun hr => absurd hrefreshing hr }
    settled := by
      intro hrun
      have hs := h.settled hrun
      exact {
        read := fun change m hw => by cases hw
        source := fun _ => hs.source hnot
        access := fun hr => absurd hrefreshing hr
        fresh := rfl } }

/-- `move_inner` saves the new source in the row and sets out to save it in the manifest. -/
theorem Inv.move {db : Db} {drive : Text} {path : Path} (horder : s.Orderly (.move db drive path)) :
    Inv { s.movedTo db drive path with holder := some (.reading (.source drive (s.labels drive) path)) } := by
  have hnot : ¬ s.Refreshing := not_refreshing_of_free hfree
  have hmoving : Recording.Moving { s.movedTo db drive path with
      holder := some (.reading (.source drive (s.labels drive) path)) } := ⟨_, _, _, _, rfl, rfl⟩
  exact {
    held :=
      { access := by
          intro w a hw hchange
          cases hw
          cases hchange
        source := by
          intro w drive' label path' hw hchange
          cases hw
          cases hchange
          exact ⟨rfl, rfl⟩ }
    checking := by
      intro state hrun
      have hc := h.checking state hrun
      exact {
        read := fun change m hw => by cases hw
        source := fun hm => absurd hmoving hm
        access := fun _ => hc.access hnot
        backed := fun _ hb => hc.backed hnot (horder.1 state hrun hb) }
    settled := by
      intro hrun
      have hs := h.settled hrun
      exact {
        read := fun change m hw => by cases hw
        source := fun hm => absurd hmoving hm
        access := fun _ => hs.access hnot
        fresh := hs.fresh.trans (horder.2 hrun).symm } }

end

/-! ### Runs -/

theorem Inv.step (h : Inv s) {e : RecordEvent} (horder : s.Orderly e) : Inv (s.step e) := by
  cases e with
  | grants db =>
    unfold Recording.step
    dsimp only
    split
    · exact h
    · next hidle =>
        obtain ⟨hfree, -⟩ := not_or.mp hidle
        split
        · next hsame => exact h.sameList (free_of_not_isSome hfree) hsame
        · exact h.newList (free_of_not_isSome hfree) db
  | move db drive path =>
    unfold Recording.step
    dsimp only
    split
    · exact h
    · next hfree => exact h.move (free_of_not_isSome hfree) horder
  | relabel labels =>
    unfold Recording.step
    dsimp only
    split
    · exact h
    exact ⟨⟨h.held.access, h.held.source⟩, fun state hrun =>
        have hc := h.checking state hrun
        ⟨hc.read, hc.source, hc.access, hc.backed⟩,
      fun hrun =>
        have hs := h.settled hrun
        ⟨hs.read, hs.source, hs.access, hs.fresh⟩⟩
  | hold =>
    unfold Recording.step
    dsimp only
    split
    · exact h
    · next change hheld => exact h.holdRead hheld
    · next change m hheld => exact h.holdWrite hheld _
  | next => exact h.advance horder

/-- Every moment of the run is one at which nothing goes wrong. -/
def OrderlyRun : Recording → List RecordEvent → Prop
  | _, [] => True
  | s, e :: events => s.Orderly e ∧ OrderlyRun (s.step e) events

theorem Inv.runEvents (h : Inv s) {events : List RecordEvent} (horder : OrderlyRun s events) :
    Inv (s.runEvents events) := by
  induction events generalizing s with
  | nil => exact h
  | cons e events ih => exact ih (h.step horder.1) horder.2

/-- **A recorded run agrees with its manifest.** In every orderly run, whenever the result has been recorded and
nobody is in the middle of a change, the manifest names the row's source and exactly the list the row should carry. -/
theorem recorded_run_agrees (s : Recording) (events : List RecordEvent) (henter : s.Entering)
    (horder : OrderlyRun s events) (hrec : (s.runEvents events).run = .recorded)
    (hfree : (s.runEvents events).holder = none) : (s.runEvents events).Agrees :=
  ((Entering.inv s henter).runEvents horder).agrees hrec hfree

/-! #### Runs that can be computed -/

/-- Nobody has read the manifest to write it back. -/
theorem orderly_next (h : s.holder.all (fun w => match w with | .reading _ => true | .writing _ _ => false) = true) :
    s.Orderly .next := by
  intro state m _ change m' hheld
  rw [hheld] at h
  cases h

def amy : User := ⟨"amy".toList, "user"⟩

/-- Amy may read the folders given, on a drive that is not mounted here. -/
def amyReads (paths : List Path) : Db where
  users := [amy]
  deletedUsers := []
  members := paths.map fun p => ⟨amy.id, .path, "usb".toList, p, capView⟩
  drives := fun _ => none

def sharedFolder : Path := ["Shared".toList]

def photosRow : ProtectionRow := ⟨.drive, "usb".toList, "Photos".toList :: sharedFolder, "shelf".toList, []⟩

/-- A run about to save what it read of a folder Amy may see. -/
def entering : Recording :=
  let state : ManifestState := ⟨"usb".toList, "USB".toList, photosRow.sourcePath, ⟨[amy.id], true⟩⟩
  let saved : Manifest := ⟨"usb".toList, "USB".toList, photosRow.sourcePath, ⟨[amy.id], true⟩, 0⟩
  { db := amyReads [sharedFolder]
    labels := fun _ => "USB".toList
    row := photosRow
    accessJson := ⟨[amy.id], true⟩
    active := true
    manifest := saved
    holder := none
    run := .writing state saved }

/-- Amy's access is revoked while the run saves the manifest: the check finds it, and the run repairs the manifest. -/
def revoked : List RecordEvent := [.grants (amyReads []), .next, .hold, .hold, .next, .next, .next, .next]

theorem revoked_run_agrees : (entering.runEvents revoked).run = .recorded ∧
      (entering.runEvents revoked).manifest.access = ⟨[], true⟩ ∧
      (entering.runEvents revoked).Agrees := by
  have henter : entering.Entering := ⟨rfl, _, _, rfl⟩
  have horder : OrderlyRun entering revoked :=
    ⟨trivial, orderly_next (by decide +kernel), trivial, trivial, orderly_next (by decide +kernel),
      orderly_next (by decide +kernel), orderly_next (by decide +kernel), orderly_next (by decide +kernel), trivial⟩
  exact ⟨by decide +kernel, by decide +kernel,
    recorded_run_agrees _ _ henter horder (by decide +kernel) (by decide +kernel)⟩

/-- The folder moves while the run saves the old source over the new one. While the run repairs that, Amy's access is
revoked and given back, and the second of these changes reads the manifest before the repair and writes it after. -/
def lostRepair : List RecordEvent :=
  [.move (amyReads [sharedFolder]) "usb".toList ("Pictures".toList :: sharedFolder), .hold, .hold, .next, .next, .next,
    .grants (amyReads []), .hold, .hold, .grants (amyReads [sharedFolder]), .hold, .next, .hold, .next]

/-- The run is recorded; then the folder moves to where Amy may not read. -/
def movedAway : List RecordEvent :=
  [.next, .next, .move (amyReads [sharedFolder]) "usb".toList ["Pictures".toList], .hold, .hold]

/-- The manifest of the first names a folder that is not there any more, and that of the second still lets Amy in. -/
theorem manifest_disagrees :
    ((entering.runEvents lostRepair).run = .recorded ∧ (entering.runEvents lostRepair).holder = none ∧
      ¬ (entering.runEvents lostRepair).Agrees) ∧
    ((entering.runEvents movedAway).run = .recorded ∧ (entering.runEvents movedAway).holder = none ∧
      ¬ (entering.runEvents movedAway).Agrees) := by
  unfold Agrees
  decide +kernel

end Recording

end LibreServ.Files
