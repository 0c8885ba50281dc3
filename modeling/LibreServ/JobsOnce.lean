import LibreServ.JobCopies

/-! At most one job of a domain and type is pending, queued or running, and no job is run by two workers at once, as long
as a job is only made active while no other like it is, and only taken up by a poll pass while no copy of it is under
way. -/

namespace LibreServ.Jobs

open Files (Text)

variable {a : Action}

/-- Jobs that stand in each other's way. -/
def Row.like (a b : Row) : Prop := a.domain = b.domain ∧ a.type = b.type

instance (a b : Row) : Decidable (a.like b) := by
  unfold Row.like
  infer_instance

theorem Row.like.symm {a b : Row} (h : a.like b) : b.like a := ⟨h.1.symm, h.2.symm⟩

theorem Row.like.trans {a b c : Row} (h : a.like b) (h' : b.like c) : a.like c := ⟨h.1.trans h'.1, h.2.trans h'.2⟩

namespace State

structure Once (s : State) : Prop where
  active : ∀ j j' row row', s.jobs.get? j = some row → s.jobs.get? j' = some row' → row.status.active = true →
    row'.status.active = true → row.like row' → j = j'
  handlers : ∀ w w' copy copy', s.workers.get? w = some (copy, .handling) → s.workers.get? w' = some (copy', .handling) →
    copy.job = copy'.job → w = w'

/-- Another job like this one is active. -/
def othersActive (s : State) (job : Nat) (row : Row) : Bool :=
  s.jobs.any fun j other => j ≠ job && row.like other && other.status.active

/-- A job is inserted, or made active again, only while no other like it is active; and a poll pass that takes up a job
finds no copy of it under way. -/
def Alone (s : State) (cfg : Config) (now : Int) (a : Action) : Prop :=
  (∀ row ∈ s.inserts now a, s.othersActive s.nextJob row = false) ∧
    (∀ u ∈ s.statement a, ∀ row ∈ s.jobs.get? u.1, row.status.active = false → (u.2 row).status.active = true →
      s.othersActive u.1 row = false) ∧
    ∀ copy ∈ s.takesUp now a, cfg.hasPool copy.type = true → s.count 0 copy.job = 0

instance (s : State) (cfg : Config) (now : Int) (a : Action) : Decidable (s.Alone cfg now a) := by
  unfold Alone
  infer_instance

def RunAlone (cfg : Config) : List (Int × Action) → State → Prop
  | [], _ => True
  | (now, a) :: rest, s => s.Alone cfg now a ∧ RunAlone cfg rest (s.step cfg now a)

section Once

variable {s : State} {cfg : Config} {now : Int}

theorem othersActive_false {job : Nat} {row : Row} (h : s.othersActive job row = false) {j : Nat} {other : Row}
    (hother : s.jobs.get? j = some other) (hactive : other.status.active = true) (hlike : row.like other) : j = job := by
  by_contra hne
  have hany : s.othersActive job row = true :=
    Table.any_iff.mpr ⟨j, other, hother, by simp [hne, hlike, hactive]⟩
  rw [h] at hany
  cases hany

/-- A job that is active after a step was so before, or the step made it active while no other like it was. -/
theorem active_cases (halone : s.Alone cfg now a) {j : Nat} {row : Row}
    (hrow : (s.step cfg now a).jobs.get? j = some row) (hactive : row.status.active = true) :
    (∃ old, s.jobs.get? j = some old ∧ old.status.active = true ∧ row.like old) ∨
      (((s.inserts now a).isSome = true ∧ j = s.nextJob ∨ ∃ f, s.statement a = some (j, f)) ∧
        ∀ i other, s.jobs.get? i = some other → other.status.active = true → row.like other → i = j) := by
  rcases row_cases hrow with ⟨hinserts, rfl⟩ | ⟨old, hold, rfl | ⟨-, rfl⟩ | ⟨f, hstatement, rfl⟩⟩
  · right
    refine ⟨.inl ⟨hinserts ▸ rfl, rfl⟩, fun i other hother hon hlike => ?_⟩
    exact othersActive_false (halone.1 row hinserts) hother hon hlike
  · exact .inl ⟨row, hold, hactive, rfl, rfl⟩
  · cases hactive
  · obtain ⟨htype, hdomain⟩ := statement_keeps hstatement old
    have hsame : (f old).like old := ⟨hdomain, htype⟩
    cases hon : old.status.active with
    | true => exact .inl ⟨old, hold, hon, hsame⟩
    | false =>
      right
      refine ⟨.inr ⟨f, hstatement⟩, fun i other hother hactive' hlike => ?_⟩
      exact othersActive_false (halone.2.1 (j, f) hstatement old hold hon hactive) hother hactive' (hsame.symm.trans hlike)

theorem statement_of_inserts (h : (s.inserts now a).isSome = true) : s.statement a = none := by
  unfold inserts at h
  split at h
  · split at h
    · rename_i hcall
      simp [statement, hcall]
    · cases h
  · cases h

/-- The active jobs are still one of each kind after a step. -/
theorem active_step (honce : s.Once) (halone : s.Alone cfg now a) {j j' : Nat}
    {row row' : Row} (hrow : (s.step cfg now a).jobs.get? j = some row)
    (hrow' : (s.step cfg now a).jobs.get? j' = some row') (hactive : row.status.active = true)
    (hactive' : row'.status.active = true) (hlike : row.like row') : j = j' := by
  rcases active_cases halone hrow hactive with ⟨old, hold, hon, hsame⟩ | ⟨hmade, hfree⟩
  · rcases active_cases halone hrow' hactive' with ⟨old', hold', hon', hsame'⟩ | ⟨-, hfree'⟩
    · exact honce.active j j' old old' hold hold' hon hon' (hsame.symm.trans (hlike.trans hsame'))
    · exact hfree' j old hold hon (hlike.symm.trans hsame)
  · rcases active_cases halone hrow' hactive' with ⟨old', hold', hon', hsame'⟩ | ⟨hmade', -⟩
    · exact (hfree j' old' hold' hon' (hlike.trans hsame')).symm
    · -- a step makes one job active
      rcases hmade with ⟨hinserts, rfl⟩ | ⟨f, hf⟩
      · rcases hmade' with ⟨-, rfl⟩ | ⟨f', hf'⟩
        · rfl
        · rw [statement_of_inserts hinserts] at hf'
          cases hf'
      · rcases hmade' with ⟨hinserts, -⟩ | ⟨f', hf'⟩
        · rw [statement_of_inserts hinserts] at hf
          cases hf
        · exact (Prod.mk.inj (Option.some.inj (hf.symm.trans hf'))).1

/-- Of no job is more than one copy under way. -/
theorem count_le_step (hknown : s.Known)
    (htakes : ∀ copy ∈ s.takesUp now a, cfg.hasPool copy.type = true → s.count 0 copy.job = 0)
    (hone : ∀ j, s.count 0 j ≤ 1) (j : Nat) : (s.step cfg now a).count 0 j ≤ 1 := by
  have hcount : (s.step cfg now a).count 0 j + (if s.finishes a = some j then 0 else 0) ≤
      s.count 0 j + s.gained 0 cfg now j a := count_step (Nat.zero_le 1) a
  by_cases hgained : s.gained 0 cfg now j a = 0
  · have hle := hone j
    omega
  have hbound : s.gained 0 cfg now j a ≤ 1 := by
    unfold gained
    split
    · split <;> omega
    · split
      · split <;> omega
      · omega
    · split
      · split <;> omega
      · split
        · split
          · split <;> omega
          · omega
        · omega
    · omega
  have hzero : s.count 0 j = 0 := by
    rcases gained_cases hgained with ⟨row, rfl, hrow, -⟩ | ⟨-, rfl⟩ | ⟨-, hx⟩ | ⟨copy, htake, rfl, hpool⟩
    · exfalso
      apply hgained
      simp [gained]
    · have hfresh := hknown.fresh s.nextJob le_rfl
      have hmono := count_mono (s := s) s.nextJob
      omega
    · exact absurd rfl hx
    · rcases hpool with hpool | hx
      · exact htakes copy htake hpool
      · exact absurd rfl hx
  omega

theorem handlers_of_count (hone : ∀ j, s.count 0 j ≤ 1) {w w' : JobType × Nat} {copy copy' : Copy}
    (hw : s.workers.get? w = some (copy, .handling)) (hw' : s.workers.get? w' = some (copy', .handling))
    (hjob : copy.job = copy'.job) : w = w' := by
  by_contra hne
  have htwo := Table.add_le_tally hw hw' (fun h => hne h.symm) fun _ work => workWeight copy.job work
  have hself : workWeight copy.job (copy, .handling) = 1 := by simp [workWeight, Stage.live]
  have hother : workWeight copy.job (copy', .handling) = 1 := by simp [workWeight, Stage.live, hjob]
  have hle := hone copy.job
  unfold count at hle
  omega

theorem once_run {steps : List (Int × Action)} (hknown : s.Known) (hone : ∀ j, s.count 0 j ≤ 1) (honce : s.Once)
    (halone : RunAlone cfg steps s) : (run cfg steps s).Once := by
  induction steps generalizing s with
  | nil => exact honce
  | cons head rest ih =>
    obtain ⟨now, a⟩ := head
    obtain ⟨ha, hrest⟩ := halone
    have hone' : ∀ j, (s.step cfg now a).count 0 j ≤ 1 := count_le_step hknown ha.2.2 hone
    refine ih (hknown.step a) hone' ⟨?_, ?_⟩ hrest
    · intro j j' row row' hrow hrow' hactive hactive' hlike
      exact active_step honce ha hrow hrow' hactive hactive' hlike
    · intro w w' copy copy' hw hw' hjob
      exact handlers_of_count hone' hw hw' hjob

end Once

end State

/-- In a run whose steps find the job alone, at most one job of a domain and type is active at any time, and no job's
handler is running in two workers. -/
theorem jobs_once (cfg : Config) (steps : List (Int × Action)) (halone : State.RunAlone cfg steps State.empty) :
    (State.run cfg steps State.empty).Once := by
  refine State.once_run State.Known.empty (fun j => Nat.zero_le 1) ⟨?_, ?_⟩ halone
  · intro j j' row row' hrow
    cases hrow
  · intro w w' copy copy' hw
    cases hw

/-! ### Runs -/

def twoWorkers : Config := ⟨fun _ => true, fun _ => 100, fun _ => 2⟩

def enqueueOne : Action := .enqueue .issuance "a.org".toList "me@a.org".toList 5

/-- A job is enqueued, and a worker runs it; a poll pass in between leaves it alone. -/
def enqueuedOnce : List (Int × Action) :=
  [(0, .start), (1, enqueueOne), (1, .callNext 0 false), (1, .callNext 0 false), (1, .callNext 0 false),
    (2, .pollBegin), (2, .pollFetch), (2, .pollNext false), (2, .pollNext false), (3, .take .issuance 0),
    (3, .workerNext .issuance 0 .ok 0), (3, .workerNext .issuance 0 .ok 0)]

theorem jobs_once_enqueuedOnce :
    (State.run twoWorkers enqueuedOnce State.empty).starts = [0] ∧ (State.run twoWorkers enqueuedOnce State.empty).Once := by
  refine ⟨by decide +kernel, jobs_once twoWorkers enqueuedOnce ?_⟩
  simp only [State.RunAlone, enqueuedOnce]
  decide +kernel

/-- Two calls find no job for the domain, and both insert one. -/
def enqueuedTwice : List (Int × Action) :=
  [(1, enqueueOne), (1, enqueueOne), (1, .callNext 0 false), (1, .callNext 1 false)]

/-- A poll pass finds the row before `Enqueue` has put the job in flight, and both submit it. -/
def submittedTwice : List (Int × Action) :=
  [(0, .start), (1, enqueueOne), (1, .callNext 0 false), (1, .pollBegin), (1, .pollFetch), (1, .pollNext false),
    (1, .pollNext false), (1, .callNext 0 false), (1, .callNext 0 false), (2, .take .issuance 0), (2, .take .issuance 1),
    (2, .workerNext .issuance 0 .ok 0), (2, .workerNext .issuance 0 .ok 0), (2, .workerNext .issuance 1 .ok 0),
    (2, .workerNext .issuance 1 .ok 0)]

/-- A job waits in the channel for more than ten minutes, is forgotten, and a poll pass submits it once more. -/
def waitedTooLong : List (Int × Action) :=
  [(0, .start), (1, enqueueOne), (1, .callNext 0 false), (1, .callNext 0 false), (1, .callNext 0 false),
    (2 + 2 * defaultJobTimeout, .pollBegin), (2 + 2 * defaultJobTimeout, .pollFetch),
    (2 + 2 * defaultJobTimeout, .pollNext false), (2 + 2 * defaultJobTimeout, .pollNext false),
    (3 + 2 * defaultJobTimeout, .take .issuance 0), (3 + 2 * defaultJobTimeout, .take .issuance 1),
    (3 + 2 * defaultJobTimeout, .workerNext .issuance 0 .ok 0), (3 + 2 * defaultJobTimeout, .workerNext .issuance 0 .ok 0),
    (3 + 2 * defaultJobTimeout, .workerNext .issuance 1 .ok 0), (3 + 2 * defaultJobTimeout, .workerNext .issuance 1 .ok 0)]

/-- The workers in whose hands a job's handler is running. -/
def State.handling (s : State) (job : Nat) : List (JobType × Nat) :=
  (s.workers.rows.filter fun r => r.2.1.job = job ∧ r.2.2 = .handling).map Prod.fst

theorem jobs_not_once :
    ((State.run twoWorkers enqueuedTwice State.empty).jobs.rows.map fun r => r.2.status) = [.queued, .queued] ∧
      (State.run twoWorkers submittedTwice State.empty).handling 0 = [(.issuance, 0), (.issuance, 1)] ∧
      (State.run twoWorkers waitedTooLong State.empty).handling 0 = [(.issuance, 0), (.issuance, 1)] ∧
      ¬ ∀ (cfg : Config) (steps : List (Int × Action)), (State.run cfg steps State.empty).Once := by
  refine ⟨by decide +kernel, by decide +kernel, by decide +kernel, fun hall => ?_⟩
  have hrow : ∀ j, j < 2 → (State.run twoWorkers enqueuedTwice State.empty).jobs.get? j =
      some (State.newRow 1 .issuance "a.org".toList 5) := by
    decide +kernel
  have hsame := (hall twoWorkers enqueuedTwice).active 0 1 _ _ (hrow 0 (by decide)) (hrow 1 (by decide)) rfl rfl ⟨rfl, rfl⟩
  cases hsame

end LibreServ.Jobs
