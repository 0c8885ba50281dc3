import LibreServ.DbRestore

/-! A failed restore keeps the old database in use, and a successful one runs on the new one, exactly if nothing fails, or
nothing was done, or the first opening of the new file is what fails. -/

namespace LibreServ.DbRestore

open List Option

variable {faults : Faults} {schema : Schema} {replacement main pages : Pages} {log : Option Log} {db : Db}

/-- A database in use. -/
def start (main : Pages) (log : Option Log) : State := ⟨⟨some main, log, none, true⟩, none, none⟩

/-- What it holds. -/
def held (main : Pages) : Option Log → Pages
  | none => main
  | some log => replay main log

def runAll (schema : Schema) : List String → Pages → Pages
  | [], pages => pages
  | file :: rest, pages => runAll schema rest (if schema.applied pages file then pages else schema.run file pages)

/-- The content after migration; the last step is only logged where it fails. -/
def migrated (faults : Faults) (schema : Schema) (pages : Pages) : Pages :=
  let reconciled := schema.reconcileVersions (schema.ensureTable pages)
  let done := if Db.isPending faults schema reconciled then runAll schema schema.files reconciled else reconciled
  if faults.fails .reconcileSchema then faults.left .reconcileSchema done else schema.reconcileSchema done

/-- Some file holds this content. -/
def State.Holds (st : State) (pages : Pages) : Prop :=
  st.db.content = some pages ∨ st.preRestore = some pages ∨ st.db.preMigration = some pages

/-- What should be so after the call. -/
def Kept (faults : Faults) (schema : Schema) (replacement before : Pages) : Result × State → Prop
  | (.ok, st) =>
    st.db.isOpen = true ∧ st.given = some replacement ∧ st.db.content = some (migrated faults schema replacement)
  | (.error true, st) =>
    st.db.content = some before ∧ st.db.isOpen = true ∧ (CleanupStaleBackups st).Holds before
  | (.error false, _) => True

/-- No step of `Migrate` fails on this content. -/
def Migrates (faults : Faults) (schema : Schema) (pages : Pages) : Prop :=
  faults.fails .ensureTable = false ∧ faults.fails .reconcileVersions = false ∧
    (Db.isPending faults schema (schema.reconcileVersions (schema.ensureTable pages)) = true →
      faults.fails .dryRun = false ∧ faults.fails .backup = false ∧ ∀ file ∈ schema.files, faults.fails (.run file) = false)

/-- Nothing was done; or the old file was put aside and the new one could not be moved, nor the old one back; or it could
not be opened, and the old one came back with its log; or nothing failed that is looked at. -/
def Good (faults : Faults) (schema : Schema) (replacement : Pages) : Prop :=
  faults.fails .statReplacement = true ∨
    (faults.fails .statCurrent = false ∧ faults.fails .moveAway = false ∧ faults.fails .moveIn = true ∧
      faults.fails .moveBack = true) ∨
    (faults.fails .statCurrent = false ∧ faults.fails .moveAway = false ∧ faults.fails .moveIn = false ∧
      faults.fails .open = true ∧ (faults.fails .moveBack = true ∨ faults.fails .reopen = true ∨
        faults.fails .closeCheckpoint = false ∨ faults.fails .removeLog = true)) ∨
    ((faults.fails .statCurrent = true ∨ faults.fails .moveAway = false) ∧ faults.fails .moveIn = false ∧
      faults.fails .open = false ∧ Migrates faults schema replacement ∧ faults.fails .healthCheck = false ∧
      (faults.fails .closeCheckpoint = false ∨ faults.fails .removeLog = false))

/-! ### Migration -/

namespace Db

theorem content_of_main (main : Pages) (log : Option Log) (preMigration : Option Pages) (isOpen : Bool) :
    content ⟨some main, log, preMigration, isOpen⟩ = some (held main log) := by
  cases log <;> rfl

theorem content_write (db : Db) (f : Pages → Pages) : (db.write f).content = db.content.map f := by
  obtain ⟨main, log, preMigration, isOpen⟩ := db
  cases main with
  | none => rfl
  | some main =>
    rfl

theorem content_checkpoint (db : Db) (step : Step) : (db.checkpoint faults step).content = db.content := by
  rw [checkpoint]
  split
  · rfl
  · obtain ⟨main, log, preMigration, isOpen⟩ := db
    cases main with
    | none => rfl
    | some main => rw [content_of_main]; rfl

theorem isOpen_checkpoint (db : Db) (step : Step) : (db.checkpoint faults step).isOpen = db.isOpen := by
  rw [checkpoint]
  split
  · rfl
  · rfl

theorem runMigrations_ok (backup : Pages) {files : List String} (hruns : ∀ file ∈ files, faults.fails (.run file) = false)
    (hdb : db.content = some pages) : ∃ db', runMigrations faults schema backup files db = (true, db') ∧
      db'.content = some (runAll schema files pages) ∧ db'.isOpen = db.isOpen := by
  induction files generalizing db pages with
  | nil => exact ⟨db, rfl, hdb, rfl⟩
  | cons file rest ih =>
    have hfile := hruns file mem_cons_self
    have hrest := fun f hf => hruns f (mem_cons_of_mem _ hf)
    rw [runMigrations, if_neg (by simp [hfile]), hdb, runAll]
    by_cases happlied : schema.applied pages file = true
    · rw [if_pos happlied, if_pos (by exact happlied)]
      exact ih hrest hdb
    · rw [if_neg happlied, if_neg (by exact happlied)]
      have hwrite : (db.write (schema.run file)).content = some (schema.run file pages) := by
        rw [content_write, hdb]
        rfl
      exact ih hrest hwrite

theorem runMigrations_fails {backup : Pages} {files : List String} (hfails : ∃ file ∈ files, faults.fails (.run file) = true) :
    (runMigrations faults schema backup files db).1 = false := by
  induction files generalizing db with
  | nil =>
    obtain ⟨file, hfile, -⟩ := hfails
    cases hfile
  | cons file rest ih =>
    rw [runMigrations]
    split
    · rfl
    next hno =>
      have hrest : ∃ file ∈ rest, faults.fails (.run file) = true := by
        obtain ⟨file', hfile', hfails'⟩ := hfails
        rcases mem_cons.mp hfile' with rfl | hfile'
        · exact absurd hfails' hno
        · exact ⟨file', hfile', hfails'⟩
      split
      · exact ih hrest
      · exact ih hrest

theorem migrateFiles_ok (hdry : faults.fails .dryRun = false) (hbackup : faults.fails .backup = false)
    (hruns : ∀ file ∈ schema.files, faults.fails (.run file) = false) (hdb : db.content = some pages) :
    ∃ db', db.migrateFiles faults schema = (true, db') ∧ db'.content = some (runAll schema schema.files pages) ∧
      db'.isOpen = db.isOpen := by
  have hsynced : ∀ preMigration, content { db.checkpoint faults .checkpoint with preMigration := preMigration } = some pages :=
    fun _ => (content_checkpoint db .checkpoint).trans hdb
  obtain ⟨db', hrun, hcontent, hopen⟩ := runMigrations_ok ((db.checkpoint faults .checkpoint).main.getD fun _ => [])
    hruns (hsynced (some ((db.checkpoint faults .checkpoint).main.getD fun _ => [])))
  have hopen' : db'.isOpen = db.isOpen := hopen.trans (isOpen_checkpoint db .checkpoint)
  rw [migrateFiles, if_neg (by simp [hdry])]
  dsimp only
  rw [if_neg (by simp [hbackup]), hrun]
  refine ⟨_, rfl, ?_, ?_⟩
  · split
    · exact hcontent
    · exact hcontent
  · split
    · exact hopen'
    · exact hopen'

theorem migrateFiles_fails (hfails : ¬ (faults.fails .dryRun = false ∧ faults.fails .backup = false ∧
    ∀ file ∈ schema.files, faults.fails (.run file) = false)) : (db.migrateFiles faults schema).1 = false := by
  rw [migrateFiles]
  split
  · rfl
  next hdry =>
    dsimp only
    split
    · rfl
    next hbackup =>
      have hrun : ∃ file ∈ schema.files, faults.fails (.run file) = true := by
        by_contra hno
        refine hfails ⟨by simpa using hdry, by simpa using hbackup, fun file hfile => ?_⟩
        by_contra hrun
        exact hno ⟨file, hfile, by simpa using hrun⟩
      have hfalse : ∀ backup db, (runMigrations faults schema backup schema.files db).1 = false := fun _ _ =>
        runMigrations_fails hrun
      split
      · rfl
      next done hdone =>
        have htrue := hfalse ((db.checkpoint faults .checkpoint).main.getD fun _ => [])
          { db.checkpoint faults .checkpoint with
            preMigration := some ((db.checkpoint faults .checkpoint).main.getD fun _ => []) }
        rw [hdone] at htrue
        cases htrue

theorem Migrate_ok (h : Migrates faults schema pages) (hdb : db.content = some pages) :
    ∃ db', db.Migrate faults schema = (true, db') ∧ db'.content = some (migrated faults schema pages) ∧
      db'.isOpen = db.isOpen := by
  obtain ⟨hensure, hversions, hfiles⟩ := h
  have hreconciled : ((db.write schema.ensureTable).write schema.reconcileVersions).content =
      some (schema.reconcileVersions (schema.ensureTable pages)) := by
    rw [content_write, content_write, hdb]
    rfl
  have hlast : ∀ {done : Db} {content : Pages}, done.content = some content →
      (done.write (if faults.fails .reconcileSchema then faults.left .reconcileSchema else schema.reconcileSchema)).content =
        some (if faults.fails .reconcileSchema then faults.left .reconcileSchema content else schema.reconcileSchema content) := by
    intro done content hdone
    rw [content_write, hdone]
    split
    · rfl
    · rfl
  rw [Migrate, if_neg (by simp [hensure])]
  simp only [hversions, Bool.false_eq_true, hreconciled, any_some, migrated]
  by_cases hpending : isPending faults schema (schema.reconcileVersions (schema.ensureTable pages)) = true
  · obtain ⟨hdry, hbackup, hruns⟩ := hfiles hpending
    obtain ⟨db', hmigrate, hcontent, hopen⟩ := migrateFiles_ok hdry hbackup hruns hreconciled
    simp only [hpending, hmigrate]
    exact ⟨_, rfl, hlast hcontent, hopen⟩
  · simp only [hpending, Bool.false_eq_true, if_false]
    exact ⟨_, rfl, hlast hreconciled, rfl⟩

theorem Migrate_fails (h : ¬ Migrates faults schema pages) (hdb : db.content = some pages) :
    (db.Migrate faults schema).1 = false := by
  have hreconciled : ((db.write schema.ensureTable).write schema.reconcileVersions).content =
      some (schema.reconcileVersions (schema.ensureTable pages)) := by
    rw [content_write, content_write, hdb]
    rfl
  rw [Migrate]
  split
  · rfl
  next hensure =>
    split
    · rfl
    next hversions =>
      simp only [hreconciled, any_some]
      have hpending : isPending faults schema (schema.reconcileVersions (schema.ensureTable pages)) = true ∧
          ¬ (faults.fails .dryRun = false ∧ faults.fails .backup = false ∧
            ∀ file ∈ schema.files, faults.fails (.run file) = false) := by
        by_contra hno
        refine h ⟨by simpa using hensure, by simpa using hversions, fun hpending => ?_⟩
        by_contra hfiles
        exact hno ⟨hpending, hfiles⟩
      have hfalse : (((db.write schema.ensureTable).write schema.reconcileVersions).migrateFiles faults schema).1 = false :=
        migrateFiles_fails hpending.2
      simp only [hpending.1, if_true, hfalse, Bool.false_eq_true, if_false]

end Db

/-! ### The swap -/

/-- The log that a failed checkpoint and a failed removal leave. -/
def leftLog (faults : Faults) (log : Option Log) : Option Log :=
  if faults.fails .closeCheckpoint ∧ faults.fails .removeLog then log else none

/-- The old database, closed. -/
def alone (faults : Faults) (main : Pages) (log : Option Log) : Db :=
  ⟨some (if faults.fails .closeCheckpoint then main else held main log), leftLog faults log, none, false⟩

theorem ReplaceFile_start (hread : faults.fails .statReplacement = false) :
    ReplaceFile faults schema replacement (start main log) =
      if faults.fails .statCurrent then moveIn faults schema replacement none (alone faults main log)
      else if faults.fails .moveAway then (.error true, ⟨alone faults main log, none, none⟩)
      else moveIn faults schema replacement (alone faults main log).main { alone faults main log with main := none } := by
  have halone : (if faults.fails .removeLog then (start main log).db.close faults .closeCheckpoint
      else { (start main log).db.close faults .closeCheckpoint with log := none }) = alone faults main log := by
    rw [alone, leftLog, Db.close, Db.checkpoint]
    cases hclose : faults.fails .closeCheckpoint with
    | true =>
      cases hremove : faults.fails .removeLog with
      | true | false => rfl
    | false =>
      have hcontent : (start main log).db.content = some (held main log) := Db.content_of_main ..
      split
      · rfl
      · rfl
  rw [ReplaceFile, if_neg (by simp [hread])]
  dsimp only
  rw [halone]
  cases hstat : faults.fails .statCurrent with
  | true | false => rfl

theorem migrateAndCheck_eq (faults : Faults) (schema : Schema) (db : Db) : ∃ result final,
    (result = .ok ∨ result = .error true) ∧ ∀ rollbackFile, ∃ pre,
      migrateAndCheck faults schema rollbackFile db = (result, ⟨final, pre, db.content⟩) := by
  cases hmigrate : db.Migrate faults schema with
  | mk ok final =>
    cases ok with
    | false =>
      refine ⟨.error true, final, .inr rfl, fun rollbackFile => ⟨rollbackFile, ?_⟩⟩
      rw [migrateAndCheck, hmigrate]
    | true =>
      cases hhealth : faults.fails .healthCheck with
      | true =>
        refine ⟨.error true, final, .inr rfl, fun rollbackFile => ⟨rollbackFile, ?_⟩⟩
        simp only [migrateAndCheck, hmigrate, hhealth, if_true]
      | false =>
        refine ⟨.ok, final, .inl rfl, fun rollbackFile => ⟨if faults.fails .removeRollback then rollbackFile else none, ?_⟩⟩
        simp only [migrateAndCheck, hmigrate, hhealth, Bool.false_eq_true, if_false]

theorem migrateAndCheck_kept {pre : Option Pages} {before : Pages} (hmigrates : Migrates faults schema replacement)
    (hhealth : faults.fails .healthCheck = false) :
    Kept faults schema replacement before (migrateAndCheck faults schema pre ⟨some replacement, none, none, true⟩) := by
  have hgiven : Db.content ⟨some replacement, none, none, true⟩ = some replacement := rfl
  obtain ⟨final, hmigrate, hcontent, hopen⟩ := Db.Migrate_ok hmigrates hgiven
  rw [migrateAndCheck, hmigrate]
  simp only [hhealth, Bool.false_eq_true]
  exact ⟨hopen, hgiven, hcontent⟩

/-- Another page than this one. -/
theorem other_page (page : List UInt8) : 0 :: page ≠ page := fun h => by
  have hlen := congrArg length h
  simp at hlen

/-- Where the new file was opened and the call keeps what it should whatever was held before, it succeeds on the
replacement's content. -/
theorem opened_ok (hopened : ∀ main, ∃ pre, ReplaceFile faults schema replacement (start main log) =
      migrateAndCheck faults schema pre ⟨some replacement, leftLog faults log, none, true⟩)
    (hpages : ∀ page, ∃ main, held main log 1 = page)
    (h : ∀ main, Kept faults schema replacement (held main log) (ReplaceFile faults schema replacement (start main log))) :
    Db.content ⟨some replacement, leftLog faults log, none, true⟩ = some replacement ∧ ∃ pre final,
      migrateAndCheck faults schema pre ⟨some replacement, leftLog faults log, none, true⟩ = (.ok, final) := by
  obtain ⟨result, final, hresult, hcheck⟩ :=
    migrateAndCheck_eq faults schema ⟨some replacement, leftLog faults log, none, true⟩
  have hrun : ∀ main, ∃ pre pre', migrateAndCheck faults schema pre ⟨some replacement, leftLog faults log, none, true⟩ =
      (result, ⟨final, pre', Db.content ⟨some replacement, leftLog faults log, none, true⟩⟩) ∧
      Kept faults schema replacement (held main log)
        (result, ⟨final, pre', Db.content ⟨some replacement, leftLog faults log, none, true⟩⟩) := by
    intro main
    obtain ⟨pre, heq⟩ := hopened main
    obtain ⟨pre', heq'⟩ := hcheck pre
    have hkept := h main
    rw [heq, heq'] at hkept
    exact ⟨pre, pre', heq', hkept⟩
  obtain ⟨some', hsome⟩ := hpages []
  obtain ⟨pre, pre', heq, hkept⟩ := hrun some'
  rcases hresult with rfl | rfl
  · exact ⟨hkept.2.1, pre, _, heq⟩
  -- An error leaves what does not depend on the old pages.
  obtain ⟨main, hmain⟩ := hpages (0 :: held some' log 1)
  obtain ⟨-, pre'', -, hkept'⟩ := hrun main
  have hsame : held some' log = held main log := some.inj (hkept.1.symm.trans hkept'.1)
  rw [← hsame] at hmain
  exact absurd hmain.symm (other_page _)

/-- Then nothing has failed that is looked at. -/
theorem opened_good (hopened : ∀ main log, ∃ pre, ReplaceFile faults schema replacement (start main log) =
      migrateAndCheck faults schema pre ⟨some replacement, leftLog faults log, none, true⟩)
    (h : ∀ main log, Kept faults schema replacement (held main log)
      (ReplaceFile faults schema replacement (start main log))) :
    Migrates faults schema replacement ∧ faults.fails .healthCheck = false ∧
      (faults.fails .closeCheckpoint = false ∨ faults.fails .removeLog = false) := by
  have hlogs : faults.fails .closeCheckpoint = false ∨ faults.fails .removeLog = false := by
    by_contra hno
    rw [not_or, Bool.not_eq_false, Bool.not_eq_false] at hno
    let log : Log := fun p => if p = 0 then some (0 :: replacement 0) else none
    obtain ⟨hgiven, -⟩ := opened_ok (hopened · (some log)) (fun page => ⟨fun _ => page, rfl⟩) (h · (some log))
    rw [leftLog, if_pos hno] at hgiven
    exact other_page _ (congrFun (some.inj hgiven) 0)
  have hleft : leftLog faults none = none := by
    rw [leftLog]
    split
    · rfl
    · rfl
  obtain ⟨-, pre, final, heq⟩ := opened_ok (hopened · none) (fun page => ⟨fun _ => page, rfl⟩) (h · none)
  rw [hleft, migrateAndCheck] at heq
  have hmigrates : Migrates faults schema replacement := by
    by_contra hno
    have hfalse := Db.Migrate_fails hno (show Db.content ⟨some replacement, none, none, true⟩ = some replacement from rfl)
    split at heq
    · cases heq
    · next hmigrate =>
        rw [hmigrate] at hfalse
        cases hfalse
  refine ⟨hmigrates, ?_, hlogs⟩
  split at heq
  · cases heq
  · split at heq
    · cases heq
    · next hhealth => simpa using hhealth

theorem moveIn_opened (rollbackFile old : Option Pages) (hin : faults.fails .moveIn = false)
    (hopen : faults.fails .open = false) : moveIn faults schema replacement rollbackFile ⟨old, log, none, false⟩ =
      migrateAndCheck faults schema rollbackFile ⟨some replacement, log, none, true⟩ := by
  unfold moveIn
  rw [if_neg (by simp [hin])]
  rw [if_neg (by simp [hopen])]

theorem moveIn_unopened (rollbackFile old : Option Pages) (hin : faults.fails .moveIn = false)
    (hopen : faults.fails .open = true) : moveIn faults schema replacement rollbackFile ⟨old, log, none, false⟩ =
      putBack faults rollbackFile ⟨some replacement, log, none, false⟩ := by
  unfold moveIn
  rw [if_neg (by simp [hin])]
  rw [if_pos hopen]

/-- Where the new file cannot be moved in, nothing is open. -/
theorem moveIn_unmoved (rollbackFile old : Option Pages) (hin : faults.fails .moveIn = true)
    (hback : rollbackFile = none ∨ faults.fails .moveBack = false) :
    ∃ st, moveIn faults schema replacement rollbackFile ⟨old, log, none, false⟩ = (.error true, st) ∧ st.db.isOpen = false := by
  unfold moveIn
  rw [if_pos hin]
  cases rollbackFile with
  | none => exact ⟨_, rfl, rfl⟩
  | some file =>
    dsimp only
    rcases hback with hback | hback
    · cases hback
    · rw [if_neg (by simp [hback])]
      exact ⟨_, rfl, rfl⟩

/-- The old pages come back, with the log that is left. -/
theorem putBack_some {old : Pages} (hback : faults.fails .moveBack = false) (hreopen : faults.fails .reopen = false)
    (log : Option Log) : putBack faults (some old) ⟨some replacement, log, none, false⟩ =
      (.error true, ⟨⟨some old, log, none, true⟩, none, none⟩) := by
  rw [putBack]
  cases faults.fails .removeNew with
  | true | false => simp [hback, hreopen, Db.reopen]

theorem good_of_kept (h : ∀ main log, Kept faults schema replacement (held main log)
    (ReplaceFile faults schema replacement (start main log))) : Good faults schema replacement := by
  cases hread : faults.fails .statReplacement with
  | true => exact .inl hread
  | false =>
    cases hstat : faults.fails .statCurrent with
    | true =>
      have hrun : ∀ main log, ReplaceFile faults schema replacement (start main log) =
          moveIn faults schema replacement none ⟨(alone faults main log).main, leftLog faults log, none, false⟩ := by
        intro main log
        rw [ReplaceFile_start hread, if_pos hstat]
        rfl
      have hkept := h (fun _ => []) none
      cases hin : faults.fails .moveIn with
      | true =>
        obtain ⟨st, heq, hclosed⟩ := moveIn_unmoved none _ hin (.inl rfl)
        rw [hrun, heq] at hkept
        exact absurd (hclosed.symm.trans hkept.2.1) Bool.false_ne_true
      | false =>
        cases hopen : faults.fails .open with
        | true =>
          rw [hrun, moveIn_unopened none _ hin hopen] at hkept
          exact absurd hkept.2.1 Bool.false_ne_true
        | false =>
          have hopened : ∀ main log, ∃ pre, ReplaceFile faults schema replacement (start main log) =
              migrateAndCheck faults schema pre ⟨some replacement, leftLog faults log, none, true⟩ :=
            fun main log => ⟨none, (hrun main log).trans (moveIn_opened none _ hin hopen)⟩
          obtain ⟨hmigrates, hhealth, hlogs⟩ := opened_good hopened h
          exact .inr (.inr (.inr ⟨.inl hstat, hin, hopen, hmigrates, hhealth, hlogs⟩))
    | false =>
      cases haway : faults.fails .moveAway with
      | true =>
        have hkept := h (fun _ => []) none
        rw [ReplaceFile_start hread, if_neg (by simp [hstat]), if_pos haway] at hkept
        exact absurd hkept.2.1 Bool.false_ne_true
      | false =>
        have hrun : ∀ main log, ReplaceFile faults schema replacement (start main log) =
            moveIn faults schema replacement (alone faults main log).main ⟨none, leftLog faults log, none, false⟩ := by
          intro main log
          rw [ReplaceFile_start hread, if_neg (by simp [hstat]), if_neg (by simp [haway])]
          rfl
        cases hin : faults.fails .moveIn with
        | true =>
          cases hback : faults.fails .moveBack with
          | true => exact .inr (.inl ⟨hstat, haway, hin, hback⟩)
          | false =>
            have hkept := h (fun _ => []) none
            obtain ⟨st, heq, hclosed⟩ := moveIn_unmoved _ none hin (.inr hback)
            rw [hrun, heq] at hkept
            exact absurd (hclosed.symm.trans hkept.2.1) Bool.false_ne_true
        | false =>
          cases hopen : faults.fails .open with
          | true =>
            refine .inr (.inr (.inl ⟨hstat, haway, hin, hopen, ?_⟩))
            by_contra hno
            simp only [not_or, Bool.not_eq_true, Bool.not_eq_false] at hno
            obtain ⟨hback, hreopen, hclose, hremove⟩ := hno
            have hkept := h (fun _ => []) (some fun _ => some [0])
            rw [hrun, moveIn_unopened _ none hin hopen, alone, if_pos hclose, putBack_some hback hreopen, leftLog,
              if_neg (by simp [hremove])] at hkept
            have hpage := congrFun (some.inj hkept.1) 0
            cases hpage
          | false =>
            have hopened : ∀ main log, ∃ pre, ReplaceFile faults schema replacement (start main log) =
                migrateAndCheck faults schema pre ⟨some replacement, leftLog faults log, none, true⟩ :=
              fun main log => ⟨_, (hrun main log).trans (moveIn_opened _ none hin hopen)⟩
            obtain ⟨hmigrates, hhealth, hlogs⟩ := opened_good hopened h
            exact .inr (.inr (.inr ⟨.inr haway, hin, hopen, hmigrates, hhealth, hlogs⟩))

theorem kept_of_good (h : Good faults schema replacement) (main : Pages) (log : Option Log) :
    Kept faults schema replacement (held main log) (ReplaceFile faults schema replacement (start main log)) := by
  rcases hread : faults.fails .statReplacement with _ | _
  · rcases h with hread' | ⟨hstat, haway, hin, hback⟩ | ⟨hstat, haway, hin, hopen, hrest⟩ |
      ⟨hplaced, hin, hopen, hmigrates, hhealth, hlogs⟩
    · rw [hread] at hread'
      cases hread'
    · rw [ReplaceFile_start hread, if_neg (by simp [hstat]), if_neg (by simp [haway]), alone]
      unfold moveIn
      rw [if_pos hin]
      dsimp only
      rw [if_pos hback]
      trivial
    · rw [ReplaceFile_start hread, if_neg (by simp [hstat]), if_neg (by simp [haway]), alone]
      rw [moveIn_unopened _ none hin hopen]
      cases hback : faults.fails .moveBack with
      | true =>
        simp only [putBack, hback, Bool.not_true]
        trivial
      | false =>
        cases hreopen : faults.fails .reopen with
        | true =>
          simp only [putBack, hreopen, Bool.not_true, Bool.and_false]
          trivial
        | false =>
          rw [putBack_some hback hreopen]
          have hheld : held (if faults.fails .closeCheckpoint then main else held main log) (leftLog faults log) =
              held main log := by
            rw [leftLog]
            cases hclose : faults.fails .closeCheckpoint with
            | false => rfl
            | true =>
              have hremove : faults.fails .removeLog = true := by
                simpa [hback, hreopen, hclose] using hrest
              simp [hremove]
          have hcontent : Db.content ⟨some (if faults.fails .closeCheckpoint then main else held main log),
              leftLog faults log, none, true⟩ = some (held main log) := by
            rw [Db.content_of_main, hheld]
          exact ⟨hcontent, rfl, .inl hcontent⟩
    · have hleft : leftLog faults log = none := by
        rw [leftLog, if_neg]
        rintro ⟨hclose, hremove⟩
        rw [hclose, hremove] at hlogs
        simp at hlogs
      have hopened : ∃ pre, ReplaceFile faults schema replacement (start main log) =
          migrateAndCheck faults schema pre ⟨some replacement, none, none, true⟩ := by
        rw [ReplaceFile_start hread]
        split
        · refine ⟨none, ?_⟩
          rw [← hleft]
          exact moveIn_opened none _ hin hopen
        · next hstat =>
            refine ⟨(alone faults main log).main, ?_⟩
            rw [if_neg (by simpa [hstat] using hplaced), ← hleft]
            exact moveIn_opened _ none hin hopen
      obtain ⟨pre, heq⟩ := hopened
      rw [heq]
      exact migrateAndCheck_kept hmigrates hhealth
  · rw [ReplaceFile, if_pos hread]
    have hcontent : (start main log).db.content = some (held main log) := Db.content_of_main ..
    exact ⟨hcontent, rfl, .inl hcontent⟩

/-- Whatever was held before, a call keeps what it should; exactly if the steps that fail are good. -/
theorem kept_iff (faults : Faults) (schema : Schema) (replacement : Pages) :
    (∀ main log, Kept faults schema replacement (held main log)
      (ReplaceFile faults schema replacement (start main log))) ↔ Good faults schema replacement :=
  ⟨good_of_kept, kept_of_good⟩

/-- One migration file, which fails on the restored database. -/
def badUpload : Faults := ⟨fun step => step = .run "001_schema.sql", fun _ pages => pages, fun _ _ => []⟩

def oneFile : Schema := ⟨id, id, ["001_schema.sql"], fun _ _ => false, fun _ => id, id⟩

/-- The call fails, the restored content stays in use, and the next start deletes the old one. -/
theorem bad_upload_not_kept : ¬ Kept badUpload oneFile (fun _ => [1]) (held (fun _ => [0]) none)
        (ReplaceFile badUpload oneFile (fun _ => [1]) (start (fun _ => [0]) none)) ∧
      ¬ (CleanupStaleBackups (ReplaceFile badUpload oneFile (fun _ => [1]) (start (fun _ => [0]) none)).2).Holds fun _ => [0] := by
  have hcontent : (ReplaceFile badUpload oneFile (fun _ => [1]) (start (fun _ => [0]) none)).2.db.content =
      some fun _ => [1] := rfl
  have hother : ¬ some (fun _ => [1]) = (some fun _ => [0] : Option Pages) := by
    intro h
    have hpage : ([1] : List UInt8) = [0] := congrFun (some.inj h) 0
    cases hpage
  refine ⟨fun h => hother (hcontent.symm.trans h.1), ?_⟩
  rintro (h | h | h)
  · exact hother (hcontent.symm.trans h)
  · cases h
  · cases h

end LibreServ.DbRestore
