import LibreServ.JobsOnce

/-! How often the handler of a job is called. An error is counted in `retry_count` and a panic in `panic_count`, so that
every call but the last is in one of the two, as long as no poll pass takes up a job that is over or before its time. -/

namespace LibreServ.Jobs

open List Table Stage

variable {a : Action}

/-- The handler was called, and the row does not say yet how it ended. -/
def Stage.charged : Stage → Bool
  | .handling | .succeeded | .failed true | .panicked => true
  | _ => false

/-- The panic was counted, and the job is not given up or put back yet. -/
def Stage.judging : Stage → Bool
  | .incremented | .counted _ => true
  | _ => false

/-- What the worker goes by is what the row says. -/
def Stage.current (copy : Copy) (row : Row) : Stage → Bool
  | .failed _ => copy.retryCount = row.retryCount && copy.maxRetries = row.maxRetries
  | .counted panicCount => panicCount = row.panicCount
  | _ => true

/-- Neither a restart nor a cancellation. -/
def Action.undisturbed : Action → Bool
  | .restart | .cancel _ => false
  | _ => true

namespace State

/-- The worker that takes a step. -/
def working (s : State) : Action → Option (Copy × Stage)
  | .workerNext type worker _ _ => s.workers.get? (type, worker)
  | _ => none

/-- A poll pass takes up a job only while no copy of it is under way, it is not over and its time has come; a job that is
over is made active only while a copy of it is under way; and a worker goes by what the row says. -/
def Tries (s : State) (now : Int) (a : Action) : Prop :=
  (∀ copy ∈ s.takesUp now a, s.count 0 copy.job = 0 ∧
      ∀ row ∈ s.jobs.get? copy.job, row.status.active = true ∧ row.nextRetryAt.all (· ≤ now) = true) ∧
    (∀ u ∈ s.statement a, ∀ row ∈ s.jobs.get? u.1, row.status.active = false → (u.2 row).status.active = true →
      0 < s.count 0 u.1) ∧
    (∀ work ∈ s.working a, ∀ row ∈ s.jobs.get? work.1.job, work.2.current work.1 row = true)

instance (s : State) (now : Int) (a : Action) : Decidable (s.Tries now a) := by
  unfold Tries
  infer_instance

/-- Every step meets it and is no disturbance, and the clock does not run back. -/
def RunTries (cfg : Config) : Int → List (Int × Action) → State → Prop
  | _, [], _ => True
  | t, (now, a) :: rest, s =>
    t ≤ now ∧ a.undisturbed = true ∧ s.Tries now a ∧ RunTries cfg now rest (s.step cfg now a)

/-- The handler was not called more often than the job may be tried. -/
structure Bounded (s : State) (job : Nat) (row : Row) : Prop where
  starts : s.starts.count job ≤ row.maxRetries + maxPanicRetries
  retries : row.retryCount ≤ row.maxRetries
  panics : row.panicCount ≤ maxPanicRetries

/-- The handler of no job is called before the job's time. -/
def InTurn (s : State) (now : Int) (a : Action) : Prop :=
  ∀ job ∈ s.starting a, ∀ row ∈ s.jobs.get? job, row.nextRetryAt.all (· ≤ now) = true

instance (s : State) (now : Int) (a : Action) : Decidable (s.InTurn now a) := by
  unfold InTurn
  infer_instance

instance decidableRunTries (cfg : Config) : ∀ t steps s, Decidable (RunTries cfg t steps s)
  | _, [], _ => .isTrue trivial
  | t, (now, a) :: rest, s =>
    have := decidableRunTries cfg now rest (s.step cfg now a)
    inferInstanceAs (Decidable (t ≤ now ∧ a.undisturbed = true ∧ s.Tries now a ∧ RunTries cfg now rest (s.step cfg now a)))

/-- In the state that the run ends in no job was tried too often, and in no state before was one tried too early. -/
structure RunBounded (cfg : Config) (steps : List (Int × Action)) : Prop where
  bounded : ∀ job row, (run cfg steps empty).jobs.get? job = some row → (run cfg steps empty).Bounded job row
  inTurn : ∀ before now a after, steps = before ++ (now, a) :: after → (run cfg before empty).InTurn now a

/-! ### Workers by their stage -/

def stageWeight (p : Stage → Bool) (job : Nat) (work : Copy × Stage) : Nat :=
  if work.1.job = job ∧ p work.2 = true then 1 else 0

/-- How many workers are at such a stage with the job. -/
def inStage (s : State) (p : Stage → Bool) (job : Nat) : Nat := s.workers.tally fun _ work => stageWeight p job work

section Stages

variable {s : State} {cfg : Config} {now : Int} {p : Stage → Bool} {job : Nat} {w : JobType × Nat} {copy : Copy}
  {stage : Stage}

section

variable (hp : ∀ stage, p stage = true → stage.live = true)

include hp

theorem stageWeight_le (job : Nat) (work : Copy × Stage) :
    stageWeight p job work ≤ workWeight job work := by
  unfold stageWeight workWeight
  split
  · rename_i h
    rw [if_pos ⟨h.1, hp _ h.2⟩]
  · exact Nat.zero_le _

theorem inStage_le : s.inStage p job ≤ s.count 0 job := by
  have hle : s.workers.tally (fun _ work => stageWeight p job work) ≤ s.workers.tally fun _ work => workWeight job work :=
    tally_mono _ fun _ work => stageWeight_le hp job work
  unfold inStage count
  omega

/-- A worker at another stage comes on top. -/
theorem inStage_lt (hw : s.workers.get? w = some (copy, stage))
    (hlive : stage.live = true) (hnot : p stage = false) : s.inStage p copy.job < s.count 0 copy.job := by
  have herase := tally_erase hw fun _ work => stageWeight p copy.job work
  have hall := tally_erase hw fun _ work => workWeight copy.job work
  have hle : (s.workers.erase w).tally (fun _ work => stageWeight p copy.job work) ≤
      (s.workers.erase w).tally fun _ work => workWeight copy.job work :=
    tally_mono _ fun _ work => stageWeight_le hp copy.job work
  have hzero : stageWeight p copy.job (copy, stage) = 0 := by simp [stageWeight, hnot]
  have hone : workWeight copy.job (copy, stage) = 1 := by simp [workWeight, hlive]
  unfold inStage count
  omega

end

/-- The stage after this one. A worker that is free again is through with the job. -/
def nextStage (s : State) (outcome : Outcome) (copy : Copy) : Stage → Stage
  | .taken => if outcome = .error then .failed false else .marked
  | .marked => .handling
  | .handling =>
    match outcome with
    | .ok => .succeeded
    | .error => .failed true
    | .panic => .panicked
  | .panicked => .incremented
  | .incremented => .counted (((s.jobs.get? copy.job).map Row.panicCount).getD 0)
  | _ => .done

attribute [local simp] setWorker freeWorker removeFromInFlight setStatus updateJob handleJobError_eq

/-- A worker's step moves this worker, and no other copy of a job. -/
theorem workerNext_workers (hw : s.workers.get? w = some (copy, stage)) (outcome : Outcome) (nextRetry : Int) :
    ((s.workerNext w outcome nextRetry).workers = s.workers.put w (copy, s.nextStage outcome copy stage) ∨
        s.nextStage outcome copy stage = .done ∧ (s.workerNext w outcome nextRetry).workers = s.workers.erase w) ∧
      (s.workerNext w outcome nextRetry).calls = s.calls ∧ (s.workerNext w outcome nextRetry).waiting = s.waiting ∧
      (s.workerNext w outcome nextRetry).poll = s.poll ∧ (s.workerNext w outcome nextRetry).drained = s.drained := by
  cases stage with
  | taken | handling => cases outcome <;> simp [workerNext, nextStage, hw]
  | failed tracked => cases tracked <;> simp [workerNext, nextStage, hw]
  | marked | succeeded | panicked | incremented | counted | done => simp [workerNext, nextStage, hw]

theorem inStage_workerNext (hp : p .done = false) (hw : s.workers.get? w = some (copy, stage)) (outcome : Outcome)
    (nextRetry : Int) (job : Nat) :
    (s.workerNext w outcome nextRetry).inStage p job + stageWeight p job (copy, stage) =
      s.inStage p job + stageWeight p job (copy, s.nextStage outcome copy stage) := by
  unfold inStage
  rcases (workerNext_workers hw outcome nextRetry).1 with hput | ⟨hdone, herase⟩
  · rw [hput]
    exact tally_replace hw _ fun _ work => stageWeight p job work
  · have hzero : stageWeight p job (copy, .done) = 0 := by simp [stageWeight, hp]
    rw [herase, hdone, hzero]
    exact tally_erase hw fun _ work => stageWeight p job work

theorem count_eq_inStage (hw : s.workers.get? w = some (copy, stage)) (outcome : Outcome) (nextRetry : Int) (job : Nat) :
    (s.workerNext w outcome nextRetry).count 0 job + workWeight job (copy, stage) =
      s.count 0 job + workWeight job (copy, s.nextStage outcome copy stage) := by
  obtain ⟨-, hcalls, hwaiting, hpoll, hdrained⟩ := workerNext_workers hw outcome nextRetry
  have hlive := inStage_workerNext (p := live) rfl hw outcome nextRetry job
  unfold inStage at hlive
  unfold count
  rw [hcalls, hwaiting, hpoll]
  show _ + stageWeight live job (copy, stage) = _ + stageWeight live job _
  have hsame : ∀ t : Table (JobType × Nat) (Copy × Stage), t.tally (fun _ work => workWeight job work) =
      t.tally fun _ work => stageWeight live job work := fun _ => rfl
  rw [hsame, hsame]
  omega

/-- No other step moves a worker; one may be given a job. -/
theorem inStage_step (hp : p .taken = false) (hidle : s.working a = none) (ha : a.undisturbed = true) :
    (s.step cfg now a).inStage p job = s.inStage p job := by
  have hsame : ∀ {s' : State}, s'.workers = s.workers → s'.inStage p job = s.inStage p job := by
    intro s' h
    rw [inStage, inStage, h]
  cases a with
  | take type worker =>
    simp only [step, take]
    split
    · rename_i copy hfirst
      split
      · rename_i hfree
        have hput := tally_put_of_none hfree.2 (copy, .taken) fun _ work => stageWeight p job work
        have hzero : stageWeight p job (copy, .taken) = 0 := by simp [stageWeight, hp]
        rw [hzero] at hput
        exact hput
      · rfl
    · rfl
  | workerNext type worker outcome nextRetry =>
    have hnone : s.workers.get? (type, worker) = none := hidle
    simp [step, workerNext, hnone]
  | restart => cases ha
  | callNext c stopWins =>
    apply hsame
    simp only [step, callNext]
    repeat' split
    all_goals simp [setCall, endCall, send, tryAddInFlight_eq]
  | pollNext stopWins =>
    apply hsame
    simp only [step, pollNext]
    repeat' split
    all_goals simp [setPoll, send, tryAddInFlight_eq]
  | enqueue | cancel | pollBegin | pollFetch | stop | drain | drainNext | start =>
    apply hsame
    simp only [step, enqueue, cancel, pollBegin, pollFetch, drain, drainNext, start]
    repeat' split
    all_goals rfl

end Stages

/-! ### What is kept -/

/-- The calls of a handler against what the row has counted. -/
structure RowKept (t : Int) (s : State) (job : Nat) (row : Row) : Prop where
  retries : row.retryCount < row.maxRetries
  panics : row.panicCount ≤ maxPanicRetries
  spent : s.starts.count job ≤ row.retryCount + row.panicCount + s.inStage Stage.charged job + 1
  going : 0 < s.count 0 job ∨ row.status.active = true →
    s.starts.count job ≤ row.retryCount + row.panicCount + s.inStage Stage.charged job ∧
      row.panicCount < maxPanicRetries + s.inStage Stage.judging job
  waited : 0 < s.count 0 job → row.nextRetryAt.all (· ≤ t) = true

structure Kept (t : Int) (s : State) : Prop where
  known : s.Known
  one : ∀ job, s.count 0 job ≤ 1
  unstarted : ∀ job, s.nextJob ≤ job → s.starts.count job = 0
  rows : ∀ job row, s.jobs.get? job = some row → s.RowKept t job row

section Kept

attribute [local simp] setWorker freeWorker removeFromInFlight setStatus updateJob handleJobError_eq withStatus workerNext
  starting stageWeight workWeight Stage.charged Stage.judging Stage.live nextStage

variable {s s' : State} {cfg : Config} {now t : Int} {job : Nat} {row row' : Row}

theorem charged_live (stage : Stage) (h : stage.charged = true) : stage.live = true := by
  cases stage <;> first | rfl | cases h

theorem judging_live (stage : Stage) (h : stage.judging = true) : stage.live = true := by
  cases stage <;> first | rfl | cases h

theorem all_le {time : Option Int} (h : time.all (· ≤ t) = true) (ht : t ≤ now) : time.all (· ≤ now) = true := by
  cases time with
  | none => rfl
  | some time =>
    simp only [Option.all_some, decide_eq_true_eq] at h ⊢
    omega

/-- The numbers are what they were, and the job is under way or active only if it was. -/
theorem RowKept.same (h : s.RowKept t job row) (hstarts : s'.starts.count job = s.starts.count job)
    (hcharged : s'.inStage charged job = s.inStage charged job)
    (hjudging : s'.inStage judging job = s.inStage judging job)
    (hrow : row'.retryCount = row.retryCount ∧ row'.maxRetries = row.maxRetries ∧ row'.panicCount = row.panicCount ∧
      row'.nextRetryAt = row.nextRetryAt)
    (hgoing : 0 < s'.count 0 job ∨ row'.status.active = true → 0 < s.count 0 job ∨ row.status.active = true)
    (hwaited : 0 < s'.count 0 job → row.nextRetryAt.all (· ≤ now) = true) : s'.RowKept now job row' := by
  obtain ⟨hretry, hmax, hpanic, hnext⟩ := hrow
  constructor
  · rw [hretry, hmax]
    exact h.retries
  · rw [hpanic]
    exact h.panics
  · rw [hstarts, hretry, hpanic, hcharged]
    exact h.spent
  · intro hopen
    rw [hstarts, hretry, hpanic, hcharged, hjudging]
    exact h.going (hgoing hopen)
  · rw [hnext]
    exact hwaited

/-- A worker's step with the job. -/
theorem RowKept.worker (cfg : Config) {w : JobType × Nat} {copy : Copy} {stage : Stage} (h : s.RowKept t copy.job row) (ht : t ≤ now)
    (hone : s.count 0 copy.job ≤ 1) (hw : s.workers.get? w = some (copy, stage)) {outcome : Outcome} {nextRetry : Int}
    (hcurrent : stage.current copy row = true) (hrow : s.jobs.get? copy.job = some row)
    (hrow' : (s.workerNext w outcome nextRetry).jobs.get? copy.job = some row') :
    (s.workerNext w outcome nextRetry).RowKept now copy.job row' := by
  have hcharged := inStage_workerNext (p := charged) rfl hw outcome nextRetry copy.job
  have hjudging := inStage_workerNext (p := judging) rfl hw outcome nextRetry copy.job
  have hcount := count_eq_inStage hw outcome nextRetry copy.job
  have hstarts : (s.workerNext w outcome nextRetry).starts = s.starts ++ (s.starting (.workerNext w.1 w.2 outcome nextRetry)).toList :=
    @step_starts s cfg now (.workerNext w.1 w.2 outcome nextRetry)
  have hlive : stage.live = true → 0 < s.count 0 copy.job := by
    intro hlive
    have hle := le_tally hw fun _ work => workWeight copy.job work
    rw [workWeight_live _ copy hlive, if_pos rfl] at hle
    unfold count
    omega
  have hbelow : stage.live = true → stage.judging = false → s.inStage judging copy.job < s.count 0 copy.job :=
    fun hlive hnot => inStage_lt judging_live hw hlive hnot
  have hcounted := congrArg (List.count copy.job) hstarts
  generalize hs : s.workerNext w outcome nextRetry = s' at *
  have hkeep : stage.live = true → ∀ {time : Option Int}, row.nextRetryAt = time → time.all (· ≤ now) = true := by
    rintro hstage time rfl
    exact all_le (h.waited (hlive hstage)) ht
  have hgoing : stage.live = true → _ := fun hstage => h.going (Or.inl (hlive hstage))
  have ⟨hretries, hpanics, hover, _, _⟩ := h
  cases stage with
  | taken | marked | handling | succeeded | panicked | incremented =>
    have hgoing := hgoing rfl
    cases outcome
    all_goals
      simp [← hs, hw, hrow] at hrow'
      simp [hw] at hcounted hcharged hjudging hcount hbelow
      subst hrow'
      refine ⟨hretries, ?_, ?_, fun hopen => ?_, fun _ => hkeep rfl rfl⟩
      all_goals
        try simp [JobStatus.active] at hopen
        try dsimp only
        omega
  | failed tracked =>
    have hgoing := hgoing rfl
    simp [current] at hcurrent
    have hrow' : row' = failedRow copy nextRetry row := by
      cases tracked <;> simpa [← hs, hw, hrow] using hrow'.symm
    have hnone : s'.count 0 copy.job = 0 := by
      simp at hcount
      omega
    have hall : s.starts.count copy.job = s'.starts.count copy.job ∧ s.inStage charged copy.job ≤ s'.inStage charged copy.job + 1 ∧
        s.inStage judging copy.job = s'.inStage judging copy.job := by
      cases tracked <;> simp [hw] at hcounted hcharged hjudging <;> omega
    subst hrow'
    unfold failedRow
    split
    · refine ⟨?_, hpanics, ?_, fun _ => ?_, fun hopen => ?_⟩ <;> dsimp only <;> omega
    · refine ⟨hretries, hpanics, ?_, fun hopen => ?_, fun _ => hkeep rfl rfl⟩
      · dsimp only
        omega
      · simp [JobStatus.active, hnone] at hopen
  | counted panicCount =>
    simp [current] at hcurrent
    have hgoing := hgoing rfl
    simp [← hs, hw, hrow] at hrow'
    simp [hw] at hcounted hcharged hjudging hcount
    subst hrow'
    refine ⟨hretries, hpanics, ?_, fun hopen => ?_, fun _ => hkeep rfl rfl⟩
    · dsimp only
      omega
    · split at hopen
      · simp [JobStatus.active] at hopen
        omega
      · dsimp only
        omega
  | done =>
    simp [← hs, hw, hrow] at hrow'
    simp [hw] at hcounted hcharged hjudging hcount
    subst hrow'
    refine h.same hcounted hcharged hjudging ⟨rfl, rfl, rfl, rfl⟩ ?_ ?_ <;> rw [hcount]
    · exact id
    · exact fun hpos => all_le (h.waited hpos) ht

/-- Where no worker has the job in hand, a step changes the status of the job's row at most. -/
theorem quiet_step {a : Action} (ha : a.undisturbed = true) (hother : ∀ work, s.working a = some work → work.1.job ≠ job) :
    (s.step cfg now a).starts.count job = s.starts.count job ∧
      (∀ p : Stage → Bool, p .done = false → p .taken = false → (s.step cfg now a).inStage p job = s.inStage p job) ∧
      ∀ f, s.statement a = some (job, f) → ∃ status, f = withStatus status := by
  have hstarts := congrArg (List.count job) (@step_starts s cfg now a)
  rw [count_append] at hstarts
  cases a with
  | workerNext type worker outcome nextRetry =>
    cases hw : s.workers.get? (type, worker) with
    | none => simp [step, statement, hw]
    | some work =>
      obtain ⟨copy, stage⟩ := work
      have hjob : copy.job ≠ job := hother _ hw
      refine ⟨?_, fun p hp _ => ?_, fun f hf => absurd ?_ hjob⟩
      · rw [hstarts]
        cases stage <;> simp [hw, hjob]
      · have hstage := inStage_workerNext hp hw outcome nextRetry job
        have hzero : ∀ stage, stageWeight p job (copy, stage) = 0 := fun stage => by simp [hjob]
        rwa [hzero, hzero] at hstage
      · cases stage <;> simp [statement, hw] at hf
        all_goals first | exact hf.1 | exact hf.2.1
  | callNext | pollNext | drainNext =>
    refine ⟨hstarts, fun p _ hp => inStage_step hp rfl ha, fun f hf => ?_⟩
    simp only [statement] at hf
    repeat' split at hf
    all_goals first | exact ⟨_, (Prod.mk.inj (Option.some.inj hf)).2.symm⟩ | cases hf
  | _ => exact ⟨hstarts, fun p _ hp => inStage_step hp rfl ha, fun f hf => by cases hf⟩

theorem count_pos (hold : job < s.nextJob) (h : 0 < (s.step cfg now a).count 0 job) :
    0 < s.count 0 job ∨ ∃ copy, s.takesUp now a = some copy ∧ copy.job = job := by
  have hstep : (s.step cfg now a).count 0 job + (if s.finishes a = some job then 0 else 0) ≤
      s.count 0 job + s.gained 0 cfg now job a := count_step (Nat.zero_le 1) a
  by_cases hgained : s.gained 0 cfg now job a = 0
  · left
    omega
  rcases gained_cases hgained with ⟨row, rfl, -, -⟩ | ⟨-, rfl⟩ | ⟨-, hx⟩ | ⟨copy, htake, hjob, -⟩
  · exact absurd (by simp [gained]) hgained
  · exact absurd hold (Nat.lt_irrefl _)
  · exact absurd rfl hx
  · exact .inr ⟨copy, htake, hjob⟩

theorem Kept.row_step (h : s.Kept t) (ht : t ≤ now) (ha : a.undisturbed = true) (htries : s.Tries now a)
    (hrow' : (s.step cfg now a).jobs.get? job = some row') : (s.step cfg now a).RowKept now job row' := by
  obtain ⟨htakes, hrevives, hcurrent⟩ := htries
  rcases row_cases hrow' with ⟨hinserts, rfl⟩ | ⟨row, hrow, hrows⟩
  · -- nobody has a new job, and it has no handler to call
    have hnew : row'.retryCount = 0 ∧ row'.panicCount = 0 ∧ row'.nextRetryAt = none ∧ 0 < row'.maxRetries ∧
        s.starting a = none := by
      cases a with
      | callNext c stopWins =>
        simp only [inserts] at hinserts
        split at hinserts
        · rename_i type domain priority hcall
          cases hinserts
          refine ⟨rfl, rfl, rfl, ?_, rfl⟩
          show 0 < defaultMaxRetries type
          cases type <;> decide
        · cases hinserts
      | _ => cases hinserts
    obtain ⟨hretry, hpanic, hnext, hmax, hnone⟩ := hnew
    have hstarts := congrArg (List.count s.nextJob) (@step_starts s cfg now a)
    rw [count_append, h.unstarted _ le_rfl, hnone] at hstarts
    simp at hstarts
    have hthree : 0 < maxPanicRetries := by decide
    refine ⟨by omega, by omega, by omega, fun _ => by omega, fun _ => ?_⟩
    rw [hnext]
    rfl
  · have hkept := h.rows job row hrow
    have hold := h.known.rows job row hrow
    have hwaited : 0 < (s.step cfg now a).count 0 job → row.nextRetryAt.all (· ≤ now) = true := by
      intro hpos
      rcases count_pos hold hpos with hpos | ⟨copy, htake, rfl⟩
      · exact all_le (hkept.waited hpos) ht
      · exact ((htakes copy htake).2 row hrow).2
    have hopen : 0 < (s.step cfg now a).count 0 job → 0 < s.count 0 job ∨ row.status.active = true := by
      intro hpos
      rcases count_pos hold hpos with hpos | ⟨copy, htake, rfl⟩
      · exact Or.inl hpos
      · exact Or.inr ((htakes copy htake).2 row hrow).1
    by_cases hmine : ∃ work, s.working a = some work ∧ work.1.job = job
    · obtain ⟨⟨copy, stage⟩, hwork, rfl⟩ := hmine
      cases a with
      | workerNext type worker outcome nextRetry =>
        exact hkept.worker cfg ht (h.one _) hwork (hcurrent _ hwork row hrow) hrow hrow'
      | _ => cases hwork
    obtain ⟨hstarts, hstage, hstatus⟩ := @quiet_step s cfg now job a ha fun work hwork hjob => hmine ⟨work, hwork, hjob⟩
    refine hkept.same hstarts (hstage _ rfl rfl) (hstage _ rfl rfl) ?_ ?_ hwaited
    · rcases hrows with rfl | ⟨-, rfl⟩ | ⟨f, hstatement, rfl⟩
      · exact ⟨rfl, rfl, rfl, rfl⟩
      · exact ⟨rfl, rfl, rfl, rfl⟩
      · obtain ⟨status, rfl⟩ := hstatus f hstatement
        exact ⟨rfl, rfl, rfl, rfl⟩
    · rintro (hpos | hactive)
      · exact hopen hpos
      rcases hrows with rfl | ⟨-, rfl⟩ | ⟨f, hstatement, rfl⟩
      · exact Or.inr hactive
      · cases hactive
      · cases hoff : row.status.active with
        | true => exact Or.inr rfl
        | false => exact Or.inl (hrevives (job, f) hstatement row hrow hoff hactive)

theorem Kept.step (h : s.Kept t) (ht : t ≤ now) (ha : a.undisturbed = true) (htries : s.Tries now a) :
    (s.step cfg now a).Kept now where
  known := h.known.step a
  one := count_le_step h.known (fun copy htake _ => (htries.1 copy htake).1) h.one
  unstarted := by
    intro job hjob
    rw [step_nextJob] at hjob
    have hold : s.nextJob ≤ job := by
      split at hjob <;> omega
    rw [step_starts, count_append, h.unstarted job hold]
    cases hstarting : s.starting a with
    | none => rfl
    | some j =>
      have hpos : 0 < s.count 1 j := count_of_starting hstarting
      have hne : j ≠ job := by
        rintro rfl
        have hfresh := h.known.fresh j hold
        omega
      simp [hne]
  rows := fun _ _ hrow => h.row_step ht ha htries hrow

theorem Kept.after {before rest : List (Int × Action)} (h : s.Kept t) (hr : RunTries cfg t (before ++ rest) s) :
    ∃ t', (run cfg before s).Kept t' ∧ RunTries cfg t' rest (run cfg before s) := by
  induction before generalizing s t with
  | nil => exact ⟨t, h, hr⟩
  | cons head before ih =>
    obtain ⟨now, a⟩ := head
    obtain ⟨ht, ha, htries, hr⟩ := hr
    exact ih (h.step ht ha htries) hr

theorem Kept.bounded (h : s.Kept t) (hrow : s.jobs.get? job = some row) : s.Bounded job row := by
  obtain ⟨hretries, hpanics, hover, hgoing, -⟩ := h.rows job row hrow
  have hone := h.one job
  have hcharged : s.inStage charged job ≤ s.count 0 job := inStage_le charged_live
  refine ⟨?_, hretries.le, hpanics⟩
  by_cases hpos : 0 < s.count 0 job
  · have hgoing := hgoing (.inl hpos)
    omega
  · omega

theorem Kept.empty (t : Int) : State.empty.Kept t where
  known := Known.empty
  one := fun _ => Nat.zero_le 1
  unstarted := fun _ _ => rfl
  rows := fun _ _ hrow => nomatch hrow

end Kept

end State

/-- In a run whose steps all meet the condition, no handler is called more often than the job may be tried, and none before
its job's time. -/
theorem retries_bounded (cfg : Config) (t : Int) (steps : List (Int × Action)) (h : State.RunTries cfg t steps State.empty) :
    State.RunBounded cfg steps := by
  constructor
  · intro job row hrow
    rw [← append_nil steps] at h
    obtain ⟨t', hkept, -⟩ := (State.Kept.empty t).after h
    exact hkept.bounded hrow
  · rintro before now a after rfl job hstarting row hrow
    obtain ⟨t', hkept, ht, -⟩ := (State.Kept.empty t).after h
    exact State.all_le ((hkept.rows job row hrow).waited (State.count_of_starting hstarting)) ht

/-! ### Runs -/

def oneWorker : Config := ⟨fun _ => true, fun _ => 100, fun _ => 1⟩

/-- A poll pass submits the job, and the worker receives it. -/
def polled (now : Int) : List (Int × Action) :=
  [(now, .pollBegin), (now, .pollFetch), (now, .pollNext false), (now, .pollNext false), (now, .pollNext false),
    (now, .pollNext false), (now, .take .issuance 0)]

/-- The worker calls the handler and writes down how it ended. -/
def tried (now : Int) (outcome : Outcome) (nextRetry : Int) : List (Int × Action) :=
  [(now, .workerNext .issuance 0 .ok 0), (now, .workerNext .issuance 0 .ok 0), (now, .workerNext .issuance 0 outcome 0),
    (now, .workerNext .issuance 0 .ok nextRetry), (now, .workerNext .issuance 0 .ok 0)]

def enqueued : List (Int × Action) :=
  [(0, .start), (1, enqueueOne), (1, .callNext 0 false), (1, .callNext 0 false), (1, .callNext 0 false), (1, .take .issuance 0)]

/-- A job fails once and is tried again when its time has come. -/
def triedTwice : List (Int × Action) := enqueued ++ tried 2 .error 100 ++ polled 100 ++ tried 101 .ok 0

theorem retries_bounded_triedTwice :
    (State.run oneWorker triedTwice State.empty).starts = [0, 0] ∧ State.RunBounded oneWorker triedTwice := by
  have htries : State.RunTries oneWorker 0 triedTwice State.empty := by decide +kernel
  exact ⟨by decide +kernel, retries_bounded oneWorker 0 triedTwice htries⟩

/-- A job that always fails. The second try comes before its time, and after the last one the job is taken up again and
again. -/
def triedForever : List (Int × Action) :=
  enqueued ++ tried 2 .error 100 ++ polled 3 ++ tried 3 .error 100 ++
    ([200, 201, 202, 203, 204] : List Int).flatMap fun now => polled now ++ tried now .error 150

theorem retries_not_bounded : (State.run oneWorker triedForever State.empty).starts = replicate 7 0 ∧
      ¬ (State.run oneWorker (triedForever.take 19) State.empty).InTurn 3 (.workerNext .issuance 0 .ok 0) ∧
      ¬ ∀ (cfg : Config) (steps : List (Int × Action)), (∀ step ∈ steps, step.2.undisturbed = true) →
        State.RunBounded cfg steps := by
  refine ⟨by decide +kernel, by decide +kernel, fun hall => ?_⟩
  have hrow : ∃ row, (State.run oneWorker triedForever State.empty).jobs.get? 0 = some row ∧ row.maxRetries = 3 ∧
      (State.run oneWorker triedForever State.empty).starts.count 0 = 7 := by
    refine ⟨⟨.issuance, "a.org".toList, .failed, 5, 2, 3, 0, some 100, 1⟩, ?_⟩
    decide +kernel
  obtain ⟨row, hrow, hmax, hstarts⟩ := hrow
  have hle := ((hall oneWorker triedForever (by decide +kernel)).bounded 0 row hrow).starts
  rw [hstarts, hmax] at hle
  exact absurd hle (by decide)

end LibreServ.Jobs
