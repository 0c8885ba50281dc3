import LibreServ.JobQueue

/-! How many copies of a job are under way. A copy that may still reach a worker counts as one, and a call that only has
a row to write counts as `x`: with 0 the count is of copies that may be run, with 1 of everyone who may yet write the
job's row. -/

namespace LibreServ.Jobs

open List Option Table

variable {a : Action}

def Call.weight (x job : Nat) : Call → Nat
  | .inserted copy | .added copy => if copy.job = job then 1 else 0
  | .cancelRead j => if j = job then x else 0
  | _ => 0

def Stage.live : Stage → Bool
  | .done => false
  | _ => true

def workWeight (job : Nat) (work : Copy × Stage) : Nat := if work.1.job = job ∧ work.2.live = true then 1 else 0

def Poll.weight (x job : Nat) : Poll → Nat
  | .going _ (some (copy, .added)) => if copy.job = job then 1 else 0
  | .going _ (some (copy, .submitted)) | .going _ (some (copy, .noPool)) | .going _ (some (copy, .unowned)) =>
    if copy.job = job then x else 0
  | _ => 0

def listWeight (job : Nat) (copies : List Copy) : Nat := copies.countP fun c => c.job = job

section Weights

variable (x job : Nat) (copy : Copy) (jobs : List Copy)

@[simp] theorem Call.weight_checked (type : JobType) (domain : Files.Text) (priority : Int) :
    (checked type domain priority).weight x job = 0 := rfl

@[simp] theorem Call.weight_inserted : (inserted copy).weight x job = if copy.job = job then 1 else 0 := rfl

@[simp] theorem Call.weight_added : (added copy).weight x job = if copy.job = job then 1 else 0 := rfl

@[simp] theorem Call.weight_refused : (refused copy).weight x job = 0 := rfl

@[simp] theorem Call.weight_cancelRead (j : Nat) : (cancelRead j).weight x job = if j = job then x else 0 := rfl

@[simp] theorem Call.weight_cancelled (j : Nat) : (cancelled j).weight x job = 0 := rfl

/-- What a pass with the job in hand weighs. -/
def Hand.weight : Hand → Nat
  | .added => 1
  | .refused => 0
  | .submitted | .noPool | .unowned => x

@[simp] theorem Poll.weight_cleaned : cleaned.weight x job = 0 := rfl

@[simp] theorem Poll.weight_none : (going jobs none).weight x job = 0 := rfl

@[simp] theorem Poll.weight_some (hand : Hand) :
    (going jobs (some (copy, hand))).weight x job = if copy.job = job then hand.weight x else 0 := by
  cases hand with
  | refused => exact (ite_self 0).symm
  | added | submitted | noPool | unowned => rfl

theorem workWeight_live {stage : Stage} (h : stage.live = true) :
    workWeight job (copy, stage) = if copy.job = job then 1 else 0 := by
  simp [workWeight, h]

@[simp] theorem workWeight_done : workWeight job (copy, .done) = 0 := by
  simp [workWeight, Stage.live]

theorem workWeight_le (stage stage' : Stage) (h : stage.live = true) :
    workWeight job (copy, stage') ≤ workWeight job (copy, stage) := by
  unfold workWeight
  split <;> simp_all

theorem listWeight_append (copies : List Copy) :
    listWeight job (copies ++ [copy]) = listWeight job copies + if copy.job = job then 1 else 0 := by
  simp [listWeight]

theorem listWeight_erase {copies : List Copy} {copy : Copy} (h : copy ∈ copies) :
    listWeight job (copies.erase copy) + (if copy.job = job then 1 else 0) = listWeight job copies := by
  unfold listWeight
  rw [(perm_cons_erase h).countP_eq, countP_cons]
  simp

end Weights

namespace State

variable (x : Nat) (s : State) (cfg : Config) (now : Int) (job : Nat)

def count : Nat :=
  s.calls.tally (fun _ call => call.weight x job) + s.workers.tally (fun _ work => workWeight job work) +
    listWeight job s.waiting + (s.poll.map (Poll.weight x job)).getD 0 + x * listWeight job s.drained

/-- The jobs the poll pass has still to come to. -/
def pollList : List Copy :=
  match s.poll with
  | some (.going jobs _) => jobs
  | _ => []

/-- The poll pass takes up the next job of its list. -/
def takesUp : Action → Option Copy
  | .pollNext _ =>
    match s.poll with
    | some (.going (copy :: _) none) => if copy.tooEarly now || !s.canAdd now copy.job then none else some copy
    | _ => none
  | _ => none

/-- What a step adds to the count. -/
def gained (a : Action) : Nat :=
  match a with
  | .cancel j => if j = job ∧ (s.jobs.get? j).any (fun row => row.status = .pending ∨ row.status = .queued) then x else 0
  | .callNext c _ =>
    match s.calls.get? c with
    | some (.checked _ _ _) => if s.nextJob = job then 1 else 0
    | _ => 0
  | .pollNext _ =>
    match s.poll with
    | some (.going _ (some (copy, .added))) => if copy.job = job then x else 0
    | _ =>
      match s.takesUp now a with
      | some copy => if copy.job = job then (if cfg.hasPool copy.type then 1 else x) else 0
      | none => 0
  | _ => 0

/-- The job a step marks succeeded or cancelled. -/
def finishes : Action → Option Nat
  | .callNext c _ =>
    match s.calls.get? c with
    | some (.cancelRead j) => some j
    | _ => none
  | .workerNext type worker _ _ =>
    match s.workers.get? (type, worker) with
    | some (copy, .succeeded) => some copy.job
    | _ => none
  | _ => none

/-- The job whose handler a step calls. -/
def starting (s : State) : Action → Option Nat
  | .workerNext type worker _ _ =>
    match s.workers.get? (type, worker) with
    | some (copy, .marked) => some copy.job
    | _ => none
  | _ => none

/-! ### What a step does to the rows -/

def withStatus (status : JobStatus) (row : Row) : Row := { row with status := status }

/-- What `handleJobError` writes. -/
def failedRow (copy : Copy) (nextRetry : Int) (row : Row) : Row :=
  if copy.retryCount + 1 < copy.maxRetries then
    { row with status := .pending, retryCount := copy.retryCount + 1, nextRetryAt := some nextRetry }
  else { row with status := .failed }

/-- The `UPDATE` of one row that a step makes. -/
def statement (s : State) : Action → Option (Nat × (Row → Row))
  | .callNext c _ =>
    match s.calls.get? c with
    | some (.cancelRead j) => some (j, withStatus .cancelled)
    | _ => none
  | .pollNext _ =>
    match s.poll with
    | some (.going _ (some (copy, .submitted))) => some (copy.job, withStatus .queued)
    | some (.going _ (some (copy, .unowned))) => some (copy.job, withStatus .failed)
    | _ => none
  | .workerNext type worker outcome nextRetry =>
    match s.workers.get? (type, worker) with
    | some (copy, .taken) => if outcome = .error then none else some (copy.job, withStatus .running)
    | some (copy, .succeeded) => some (copy.job, withStatus .succeeded)
    | some (copy, .failed _) => some (copy.job, failedRow copy nextRetry)
    | some (copy, .panicked) => some (copy.job, fun row => { row with panicCount := row.panicCount + 1 })
    | some (copy, .counted n) =>
      some (copy.job, withStatus (if maxPanicRetries ≤ n then .failed else .pending))
    | _ => none
  | .drainNext =>
    match s.drained with
    | copy :: _ => some (copy.job, withStatus .pending)
    | [] => none
  | _ => none

/-- The row a step inserts. -/
def inserts (s : State) (now : Int) : Action → Option Row
  | .callNext c _ =>
    match s.calls.get? c with
    | some (.checked type domain priority) => some (newRow now type domain priority)
    | _ => none
  | _ => none

def rowsAfter (s : State) (now : Int) (a : Action) : Table Nat Row :=
  match s.inserts now a with
  | some row => s.jobs.put s.nextJob row
  | none =>
    match s.statement a with
    | some (j, f) => s.jobs.update fun k row => if k = j then f row else row
    | none => s.jobs

section Steps

variable {x : Nat} {s : State} {cfg : Config} {now : Int} {job : Nat}

theorem tryAddInFlight_eq (i : Nat) : s.tryAddInFlight now i =
    { s with inFlight := if s.canAdd now i then s.inFlight.put i now else s.inFlight } := by
  unfold tryAddInFlight
  split <;> rfl

theorem handleJobError_eq (copy : Copy) (nextRetry : Int) :
    s.handleJobError copy nextRetry = s.updateJob copy.job (failedRow copy nextRetry) := by
  unfold handleJobError failedRow
  split <;> rfl

attribute [local simp] setCall endCall addCall setPoll setWorker freeWorker send removeFromInFlight setStatus updateJob
  tryAddInFlight_eq handleJobError_eq

theorem count_addCall (call : Call) : (s.addCall call).count x job ≤ s.count x job + call.weight x job := by
  have hput := tally_put_le s.calls s.nextCall call fun _ call => call.weight x job
  simp only [addCall, count]
  omega

/-- The count after a step, from the count before it and what the step is about. -/
theorem count_callNext (c : Nat) (stopWins : Bool) :
    (s.callNext cfg now c stopWins).count x job + (if s.finishes (.callNext c stopWins) = some job then x else 0) ≤
      s.count x job + s.gained x cfg now job (.callNext c stopWins) := by
  cases hc : s.calls.get? c with
  | none => simp [callNext, finishes, hc]
  | some call =>
    have hput := fun call' => tally_replace hc call' fun _ call => call.weight x job
    have herase := tally_erase hc fun _ call => call.weight x job
    cases call with
    | checked type domain priority =>
      have hput := hput (.inserted ((newRow now type domain priority).copy s.nextJob))
      simp [callNext, finishes, gained, hc, count, Row.copy] at hput ⊢
      omega
    | inserted copy =>
      have hput := hput (.added copy)
      simp [callNext, finishes, hc] at hput herase ⊢
      split <;> simp [count] <;> omega
    | added copy =>
      have hput := hput (.refused copy)
      simp [callNext, finishes, hc] at hput herase ⊢
      split <;> simp [count, listWeight_append] <;> omega
    | refused copy =>
      simp [callNext, finishes, hc, count] at herase ⊢
      omega
    | cancelRead j =>
      have hput := hput (.cancelled j)
      simp [callNext, finishes, hc, count] at hput ⊢
      omega
    | cancelled j =>
      simp [callNext, finishes, hc, count] at herase ⊢
      omega

theorem count_workerNext (hx : x ≤ 1) (type : JobType) (worker : Nat) (outcome : Outcome) (nextRetry : Int) :
    (s.workerNext (type, worker) outcome nextRetry).count x job +
        (if s.finishes (.workerNext type worker outcome nextRetry) = some job then x else 0) ≤ s.count x job := by
  cases hw : s.workers.get? (type, worker) with
  | none => simp [workerNext, finishes, hw]
  | some work =>
    obtain ⟨copy, stage⟩ := work
    -- a worker that goes on weighs what it weighed, until its row is written
    have hput : ∀ stage', stage.live = true →
        (s.workers.put (type, worker) (copy, stage')).tally (fun _ work => workWeight job work) ≤
          s.workers.tally fun _ work => workWeight job work := by
      intro stage' hlive
      have hreplace := tally_replace hw (copy, stage') fun _ work => workWeight job work
      have hle := workWeight_le job copy stage stage' hlive
      omega
    have herase := tally_erase_le s.workers (type, worker) fun _ work => workWeight job work
    cases stage with
    | taken => cases outcome <;> simpa [workerNext, finishes, hw, count] using hput _ rfl
    | succeeded =>
      have hdone := tally_replace hw (copy, .done) fun _ work => workWeight job work
      rw [workWeight_done, workWeight_live job copy rfl] at hdone
      simp only [workerNext, finishes, hw, count, setStatus, updateJob, setWorker, some.injEq]
      split at hdone
      · rename_i hjob
        rw [if_pos hjob]
        omega
      · rename_i hjob
        rw [if_neg hjob]
        omega
    | failed tracked =>
      cases tracked with
      | true => simpa [workerNext, finishes, hw, count] using hput _ rfl
      | false => simpa [workerNext, finishes, hw, count] using herase
    | marked | handling | panicked | incremented | counted => simpa [workerNext, finishes, hw, count] using hput _ rfl
    | done => simpa [workerNext, finishes, hw, count] using herase

theorem count_pollNext (stopWins : Bool) :
    (s.pollNext cfg now stopWins).count x job ≤ s.count x job + s.gained x cfg now job (.pollNext stopWins) := by
  cases hp : s.poll with
  | none => simp [pollNext, hp]
  | some poll =>
    cases poll with
    | cleaned => simp [pollNext, hp]
    | going jobs hand =>
      cases hand with
      | none =>
        cases jobs with
        | nil => simp [pollNext, hp, count]
        | cons copy rest =>
          simp only [pollNext, gained, takesUp, hp]
          split
          · simp [count]
          · simp only [tryAddInFlight_eq, setPoll, count, hp, map_some, getD_some, Poll.weight_none, Poll.weight_some]
            cases cfg.hasPool copy.type <;> simp [Hand.weight] <;> omega
      | some held =>
        obtain ⟨copy, hand⟩ := held
        cases hand with
        | added =>
          simp only [pollNext, gained, hp]
          split
          · simp only [send, setPoll, count, hp, listWeight_append]
            cases copy.status <;> simp [Hand.weight] <;> omega
          · simp only [setPoll, count, map_some, getD_some, Poll.weight_some, Hand.weight, ite_self]
            omega
        | refused | noPool => simp [pollNext, hp, count, Hand.weight]
        | submitted | unowned =>
          simp only [pollNext, hp, setStatus, updateJob, setPoll, count, map_some, getD_some, Poll.weight_none]
          omega

theorem count_take (type : JobType) (worker : Nat) : (s.take cfg type worker).count x job ≤ s.count x job := by
  unfold take
  split
  · rename_i copy hfind
    split
    · have hput := tally_put_le s.workers (type, worker) (copy, .taken) fun _ work => workWeight job work
      have herase := listWeight_erase job (mem_of_find?_eq_some hfind)
      rw [workWeight_live job copy rfl] at hput
      simp only [setWorker, count]
      omega
    · exact le_rfl
  · exact le_rfl

theorem count_drain (hx : x ≤ 1) (type : JobType) : (s.drain type).count x job ≤ s.count x job := by
  unfold drain
  split
  · split
    · rename_i copy hfind
      have herase := listWeight_erase job (mem_of_find?_eq_some hfind)
      have happend : x * listWeight job (s.drained ++ [copy]) ≤ x * listWeight job s.drained + if copy.job = job then 1 else 0 := by
        rw [listWeight_append, Nat.mul_add]
        split <;> omega
      simp only [count]
      omega
    · exact le_rfl
  · exact le_rfl

theorem count_drainNext : (s.drainNext).count x job ≤ s.count x job := by
  unfold drainNext
  split
  · rename_i copy rest hdrained
    have hless : x * listWeight job rest ≤ x * listWeight job s.drained := by
      rw [hdrained]
      apply Nat.mul_le_mul_left
      unfold listWeight
      rw [countP_cons]
      omega
    simp only [setStatus, updateJob, count]
    omega
  · exact le_rfl

/-- A step adds what `gained` says, and takes the one away who finishes the job. -/
theorem count_step (hx : x ≤ 1) (a : Action) :
    (s.step cfg now a).count x job + (if s.finishes a = some job then x else 0) ≤ s.count x job + s.gained x cfg now job a := by
  cases a with
  | callNext c stopWins => exact count_callNext c stopWins
  | pollNext stopWins => exact count_pollNext stopWins
  | take type worker => exact count_take type worker
  | workerNext type worker outcome nextRetry => exact count_workerNext hx type worker outcome nextRetry
  | drain type => exact count_drain hx type
  | drainNext => exact count_drainNext
  | enqueue type domain email priority =>
    show (s.enqueue cfg type domain email priority).count x job ≤ s.count x job
    unfold enqueue
    split
    · exact count_addCall _
    · exact le_rfl
  | cancel j =>
    show (s.cancel j).count x job ≤ _
    unfold cancel
    split
    · rename_i row hrow
      split
      · rename_i hstatus
        have hadd : (s.addCall (.cancelRead j)).count x job ≤ s.count x job + (Call.cancelRead j).weight x job := count_addCall _
        simpa [gained, hrow, hstatus] using hadd
      · exact Nat.le_add_right _ _
    · exact Nat.le_add_right _ _
  | restart =>
    have hzero : s.restart.count x job = 0 := by simp [restart, count, empty, listWeight]
    simp [step, hzero, finishes]
  | pollBegin | pollFetch | stop | start =>
    simp only [step, pollBegin, pollFetch, start, finishes, gained, count]
    split <;> simp

end Steps

section Rows

variable {s : State} {cfg : Config} {now : Int}

attribute [local simp] setCall endCall addCall setPoll setWorker freeWorker send removeFromInFlight setStatus updateJob
  tryAddInFlight_eq handleJobError_eq withStatus rowsAfter inserts statement

/-- A step inserts a row, or makes one `UPDATE`, or leaves the rows alone; `start` turns running jobs into failed ones. -/
theorem step_jobs (a : Action) (ha : a ≠ .start) : (s.step cfg now a).jobs = s.rowsAfter now a := by
  cases a with
  | callNext c stopWins =>
    cases hc : s.calls.get? c with
    | none => simp [step, callNext, hc]
    | some call => cases call <;> simp [step, callNext, hc] <;> split <;> rfl
  | pollNext stopWins =>
    cases hp : s.poll with
    | none => simp [step, pollNext, hp]
    | some poll =>
      cases poll with
      | cleaned => simp [step, pollNext, hp]
      | going jobs hand =>
        cases hand with
        | none =>
          cases jobs with
          | nil => simp [step, pollNext, hp]
          | cons copy rest =>
            simp only [step, pollNext, hp]
            split <;> simp [hp]
        | some held =>
          obtain ⟨copy, hand⟩ := held
          cases hand with
          | added =>
            simp only [step, pollNext, hp]
            split <;> simp [hp]
          | refused | submitted | noPool | unowned => simp [step, pollNext, hp]
  | workerNext type worker outcome nextRetry =>
    cases hw : s.workers.get? (type, worker) with
    | none => simp [step, workerNext, hw]
    | some work =>
      obtain ⟨copy, stage⟩ := work
      cases stage with
      | taken => cases outcome <;> simp [step, workerNext, hw]
      | failed tracked => cases tracked <;> simp [step, workerNext, hw]
      | marked | handling | succeeded | panicked | incremented | counted | done => simp [step, workerNext, hw]
  | drainNext => cases hd : s.drained <;> simp [step, drainNext, hd]
  | start => exact absurd rfl ha
  | enqueue | cancel | pollBegin | pollFetch | take | stop | drain | restart =>
    simp only [step, enqueue, cancel, pollBegin, pollFetch, take, drain]
    repeat' split
    all_goals rfl

/-- The row is a new one, or what it was, or what `start` or a statement made of it. -/
theorem row_cases {job : Nat} {row' : Row} (h : (s.step cfg now a).jobs.get? job = some row') :
    s.inserts now a = some row' ∧ job = s.nextJob ∨ ∃ row, s.jobs.get? job = some row ∧
      (row' = row ∨ a = .start ∧ row' = withStatus .failed row ∨ ∃ f, s.statement a = some (job, f) ∧ row' = f row) := by
  by_cases ha : a = .start
  · subst ha
    right
    simp only [step, start] at h
    split at h
    · exact ⟨row', h, .inl rfl⟩
    obtain ⟨row, hrow, rfl⟩ := get?_update_some.mp h
    refine ⟨row, hrow, ?_⟩
    split
    · exact .inr (.inl ⟨rfl, rfl⟩)
    · exact .inl rfl
  rw [step_jobs a ha, rowsAfter] at h
  split at h
  · rename_i new hnew
    rcases get?_put_some.mp h with ⟨hjob, rfl⟩ | ⟨-, h⟩
    · exact .inl ⟨hnew, hjob⟩
    · exact .inr ⟨row', h, .inl rfl⟩
  right
  split at h
  · rename_i j f hstatement
    obtain ⟨row, hrow, rfl⟩ := get?_update_some.mp h
    refine ⟨row, hrow, ?_⟩
    split
    · rename_i hjob
      subst hjob
      exact .inr (.inr ⟨f, hstatement, rfl⟩)
    · exact .inl rfl
  · exact ⟨row', h, .inl rfl⟩

theorem statement_keeps {j : Nat} {f : Row → Row} (h : s.statement a = some (j, f)) (row : Row) :
    (f row).type = row.type ∧ (f row).domain = row.domain := by
  have hfailed : ∀ copy nextRetry, (failedRow copy nextRetry row).type = row.type ∧
      (failedRow copy nextRetry row).domain = row.domain := by
    intro copy nextRetry
    unfold failedRow
    split <;> exact ⟨rfl, rfl⟩
  unfold statement at h
  split at h
  · split at h
    · cases h
      exact ⟨rfl, rfl⟩
    · cases h
  · split at h
    · cases h
      exact ⟨rfl, rfl⟩
    · cases h
      exact ⟨rfl, rfl⟩
    · cases h
  · split at h
    · split at h
      · cases h
      · cases h
        exact ⟨rfl, rfl⟩
    · cases h
      exact ⟨rfl, rfl⟩
    · cases h
      exact hfailed _ _
    · cases h
      exact ⟨rfl, rfl⟩
    · cases h
      exact ⟨rfl, rfl⟩
    · cases h
  · split at h
    · cases h
      exact ⟨rfl, rfl⟩
    · cases h
  · cases h

end Rows

/-! ### Numbers of jobs are given once -/

structure Known (s : State) : Prop where
  rows : ∀ j row, s.jobs.get? j = some row → j < s.nextJob
  list : ∀ copy ∈ s.pollList, copy.job < s.nextJob
  fresh : ∀ j, s.nextJob ≤ j → s.count 1 j = 0

section Known

variable {s : State} {cfg : Config} {now : Int}

theorem count_mono (j : Nat) : s.count 0 j ≤ s.count 1 j := by
  have hcalls : s.calls.tally (fun _ call => call.weight 0 j) ≤ s.calls.tally (fun _ call => call.weight 1 j) := by
    apply tally_mono
    intro _ call
    cases call <;> simp [Call.weight]
  have hpoll : (s.poll.map (Poll.weight 0 j)).getD 0 ≤ (s.poll.map (Poll.weight 1 j)).getD 0 := by
    cases s.poll with
    | none => exact le_rfl
    | some poll =>
      cases poll with
      | cleaned => exact le_rfl
      | going jobs hand =>
        cases hand with
        | none => exact le_rfl
        | some held =>
          obtain ⟨copy, hand⟩ := held
          cases hand <;> simp [Poll.weight]
  unfold count
  omega

attribute [local simp] setCall endCall addCall setPoll setWorker freeWorker send removeFromInFlight setStatus updateJob
  tryAddInFlight_eq handleJobError_eq

theorem step_nextJob (a : Action) :
    (s.step cfg now a).nextJob = if (s.inserts now a).isSome then s.nextJob + 1 else s.nextJob := by
  cases a with
  | callNext c stopWins =>
    cases hc : s.calls.get? c with
    | none => simp [step, callNext, inserts, hc]
    | some call => cases call <;> simp [step, callNext, inserts, hc] <;> split <;> rfl
  | pollNext stopWins =>
    simp only [step, pollNext, inserts]
    split <;> simp <;> split <;> rfl
  | workerNext type worker outcome nextRetry =>
    simp only [step, workerNext, inserts]
    split <;> simp <;> split <;> rfl
  | enqueue | cancel | pollBegin | pollFetch | take | stop | drain | drainNext | restart | start =>
    simp only [step, enqueue, cancel, pollBegin, pollFetch, take, drain, drainNext, start, inserts]
    repeat' split
    all_goals rfl

theorem step_starts (a : Action) : (s.step cfg now a).starts = s.starts ++ (s.starting a).toList := by
  cases a with
  | callNext c stopWins =>
    simp only [step, callNext, starting]
    repeat' split
    all_goals simp
  | pollNext stopWins =>
    simp only [step, pollNext, starting]
    repeat' split
    all_goals simp
  | workerNext type worker outcome nextRetry =>
    cases hw : s.workers.get? (type, worker) with
    | none => simp [step, workerNext, starting, hw]
    | some work =>
      obtain ⟨copy, stage⟩ := work
      cases stage with
      | taken => cases outcome <;> simp [step, workerNext, starting, hw]
      | failed tracked => cases tracked <;> simp [step, workerNext, starting, hw]
      | marked | handling | succeeded | panicked | incremented | counted | done =>
        simp [step, workerNext, starting, hw]
  | enqueue | cancel | pollBegin | pollFetch | take | stop | drain | drainNext | restart | start =>
    simp only [step, enqueue, cancel, pollBegin, pollFetch, take, drain, drainNext, restart, start, starting]
    repeat' split
    all_goals simp

theorem count_of_starting {x j : Nat} (h : s.starting a = some j) : 0 < s.count x j := by
  unfold starting at h
  split at h
  · split at h
    · rename_i copy hw
      cases h
      have hle := le_tally hw fun _ work => workWeight copy.job work
      rw [workWeight_live _ copy rfl, if_pos rfl] at hle
      unfold count
      omega
    · cases h
  · cases h

/-- What the pass has to come to is what it had, or has just read. -/
theorem step_pollList (a : Action) {copy : Copy} (h : copy ∈ (s.step cfg now a).pollList) :
    copy ∈ s.pollList ∨ a = .pollFetch ∧ copy ∈ s.getPendingJobs now := by
  cases a with
  | callNext c stopWins =>
    left
    simp only [step, callNext] at h
    split at h
    all_goals try split at h
    all_goals simpa [pollList] using h
  | pollNext stopWins =>
    left
    simp only [step, pollNext] at h
    split at h
    all_goals rename_i hp
    all_goals try split at h
    all_goals simp_all [pollList]
  | workerNext type worker outcome nextRetry =>
    left
    simp only [step, workerNext] at h
    split at h
    all_goals try split at h
    all_goals simpa [pollList] using h
  | pollFetch =>
    simp only [step, pollFetch] at h
    split at h
    · exact .inr ⟨rfl, h⟩
    · exact .inl h
  | enqueue | cancel | pollBegin | take | stop | drain | drainNext | restart | start =>
    left
    simp only [step, enqueue, cancel, pollBegin, take, drain, drainNext, start] at h
    repeat' split at h
    all_goals first | exact h | cases h

theorem mem_getPendingJobs {copy : Copy} (h : copy ∈ s.getPendingJobs now) :
    ∃ row, s.jobs.get? copy.job = some row ∧ row.due now = true ∧ copy = row.copy copy.job := by
  obtain ⟨⟨j, row⟩, hmem, rfl⟩ := mem_map.mp h
  have hsorted := mem_of_mem_take hmem
  rw [mem_mergeSort] at hsorted
  obtain ⟨hget, hdue⟩ := mem_select.mp hsorted
  exact ⟨row, hget, hdue, rfl⟩

theorem mem_pollList_of_takesUp {copy : Copy} (h : s.takesUp now a = some copy) : copy ∈ s.pollList := by
  unfold takesUp at h
  split at h
  · split at h
    · rename_i hd rest hp
      split at h
      · cases h
      · cases h
        unfold pollList
        rw [hp]
        exact mem_cons_self
    · cases h
  · cases h

/-- A step adds a job that is in the table, or in the pass's list, or whom somebody has already, or the new one. -/
theorem gained_cases {x : Nat} {j : Nat} (h : s.gained x cfg now j a ≠ 0) :
    (∃ row, a = .cancel j ∧ s.jobs.get? j = some row ∧ (row.status = .pending ∨ row.status = .queued)) ∨
      (s.inserts now a).isSome ∧ s.nextJob = j ∨ 0 < s.count 0 j ∧ x ≠ 0 ∨
      ∃ copy, s.takesUp now a = some copy ∧ copy.job = j ∧ (cfg.hasPool copy.type = true ∨ x ≠ 0) := by
  unfold gained at h
  split at h
  · rename_i i
    left
    split at h
    · rename_i hi
      obtain ⟨rfl, hany⟩ := hi
      cases hrow : s.jobs.get? i with
      | none =>
        rw [hrow] at hany
        cases hany
      | some row =>
        rw [hrow, any_some, decide_eq_true_eq] at hany
        exact ⟨row, rfl, rfl, hany⟩
    · exact absurd rfl h
  · rename_i c stopWins
    right
    left
    split at h
    · rename_i type domain priority hc
      split at h
      · rename_i hj
        refine ⟨?_, hj⟩
        simp [inserts, hc]
      · exact absurd rfl h
    · exact absurd rfl h
  · rename_i stopWins
    right
    right
    split at h
    · rename_i jobs copy hp
      left
      split at h
      · rename_i hj
        refine ⟨?_, h⟩
        have hpoll : (s.poll.map (Poll.weight 0 j)).getD 0 = 1 := by
          rw [hp]
          exact if_pos hj
        unfold count
        omega
      · exact absurd rfl h
    · right
      split at h
      · rename_i copy htakes
        split at h
        · rename_i hj
          refine ⟨copy, htakes, hj, ?_⟩
          cases hpool : cfg.hasPool copy.type with
          | true => exact .inl rfl
          | false =>
            right
            simp only [hpool, Bool.false_eq_true] at h
            exact h
        · exact absurd rfl h
      · exact absurd rfl h
  · exact absurd rfl h

theorem Known.step (h : s.Known) (a : Action) : (s.step cfg now a).Known := by
  have hnext : (s.step cfg now a).nextJob = if (s.inserts now a).isSome then s.nextJob + 1 else s.nextJob := step_nextJob a
  have hle : s.nextJob ≤ (s.step cfg now a).nextJob := by
    rw [hnext]
    split <;> omega
  refine ⟨?_, ?_, ?_⟩
  · intro j row hrow
    rcases row_cases hrow with ⟨hinserts, rfl⟩ | ⟨old, hold, -⟩
    · rw [hnext, hinserts]
      exact Nat.lt_succ_self _
    · exact (h.rows j old hold).trans_le hle
  · intro copy hcopy
    rcases step_pollList a hcopy with hold | ⟨-, hread⟩
    · exact (h.list copy hold).trans_le hle
    · obtain ⟨row, hrow, -, -⟩ := mem_getPendingJobs hread
      exact (h.rows copy.job row hrow).trans_le hle
  · intro j hj
    have hzero := h.fresh j (hle.trans hj)
    have hcount : (s.step cfg now a).count 1 j + (if s.finishes a = some j then 1 else 0) ≤
        s.count 1 j + s.gained 1 cfg now j a := count_step le_rfl a
    have hgained : s.gained 1 cfg now j a = 0 := by
      by_contra hne
      rcases gained_cases hne with ⟨row, -, hrow, -⟩ | ⟨hinserts, rfl⟩ | ⟨hheld, -⟩ | ⟨copy, htakes, rfl, -⟩
      · have hlt := h.rows j row hrow
        omega
      · rw [hnext, if_pos hinserts] at hj
        omega
      · have hmono := count_mono (s := s) j
        omega
      · have hlt := h.list copy (mem_pollList_of_takesUp htakes)
        omega
    omega

theorem Known.empty : State.empty.Known where
  rows := fun _ _ hrow => nomatch hrow
  list := fun _ hcopy => nomatch hcopy
  fresh := fun _ _ => rfl

end Known

end State

end LibreServ.Jobs
