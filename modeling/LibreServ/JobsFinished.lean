import LibreServ.JobCopies

/-! A job that succeeded or was cancelled stays so, as long as nobody else had a copy of it when it was marked, and no
poll pass comes to it after it has left the in-flight set. -/

namespace LibreServ.Jobs

open List Option Table State

variable {a : Action} {j : Nat} {steps : List (Int × Action)} {row : Row}

def JobStatus.finished : JobStatus → Bool
  | .succeeded | .cancelled => true
  | _ => false

namespace State

variable (s : State)

def isFinished (job : Nat) : Bool := (s.jobs.get? job).any fun row => row.status.finished

/-- The pass has still to come to the job. -/
def isListed (job : Nat) : Bool := s.pollList.any fun copy => copy.job = job

/-- The job a step takes out of the in-flight set. -/
def removes : Action → Option Nat
  | .callNext c _ =>
    match s.calls.get? c with
    | some (.refused copy) => some copy.job
    | some (.cancelled j) => some j
    | _ => none
  | .pollNext _ =>
    match s.poll with
    | some (.going _ (some (copy, .refused))) | some (.going _ (some (copy, .noPool))) => some copy.job
    | _ => none
  | .workerNext type worker _ _ =>
    match s.workers.get? (type, worker) with
    | some (copy, .done) => some copy.job
    | _ => none
  | _ => none

/-- A job is marked succeeded or cancelled only while nobody else may write its row, and while the pass, if it has still
to come to the job, would find it in flight; a finished job leaves the in-flight set only when the pass has not to come
to it any more; and the pass takes up no finished job. -/
def Settles (now : Int) (a : Action) : Prop :=
  (∀ j ∈ s.finishes a, s.count 1 j = 1 ∧ (s.isListed j = true → (s.inFlight.get? j).isSome = true)) ∧
    (∀ j ∈ s.removes a, s.isFinished j = true → s.isListed j = false) ∧
    ∀ copy ∈ s.takesUp now a, s.isFinished copy.job = true → s.inFlight.get? copy.job = none

instance (now : Int) (a : Action) : Decidable (s.Settles now a) := by
  unfold Settles
  infer_instance

def RunSettles (cfg : Config) : List (Int × Action) → State → Prop
  | [], _ => True
  | (now, a) :: rest, s => s.Settles now a ∧ RunSettles cfg rest (s.step cfg now a)

section Settled

variable {s : State} {cfg : Config} {now : Int}

theorem isFinished_iff {job : Nat} :
    s.isFinished job = true ↔ ∃ row, s.jobs.get? job = some row ∧ row.status.finished = true := by
  unfold isFinished
  rw [Option.any_eq_true]

theorem isListed_iff {job : Nat} : s.isListed job = true ↔ ∃ copy ∈ s.pollList, copy.job = job := by
  simp [isListed]

/-- Of a finished job nobody has a copy, unless it is one that a poll pass will find in flight. -/
structure Settled (s : State) : Prop where
  known : s.Known
  idle : ∀ j, s.isFinished j = true → s.count 1 j = 0
  listed : ∀ j, s.isFinished j = true → s.isListed j = true → ∃ t, s.inFlight.get? j = some t

/-! ### Who writes, and what -/

/-- Who makes an `UPDATE` has a copy of the job. -/
theorem statement_counts {f : Row → Row} (h : s.statement a = some (j, f)) : 0 < s.count 1 j := by
  have hcall : ∀ {c : Nat} {call : Call}, s.calls.get? c = some call → 0 < call.weight 1 j → 0 < s.count 1 j := by
    intro c call hc hpos
    have hle := le_tally hc fun _ call => call.weight 1 j
    unfold count
    omega
  have hpoll : ∀ {poll : Poll}, s.poll = some poll → 0 < poll.weight 1 j → 0 < s.count 1 j := by
    intro poll hp hpos
    have hsome : (s.poll.map (Poll.weight 1 j)).getD 0 = poll.weight 1 j := by
      rw [hp]
      rfl
    unfold count
    omega
  have hwork : ∀ {w : JobType × Nat} {copy : Copy} {stage : Stage}, s.workers.get? w = some (copy, stage) →
      copy.job = j → stage.live = true → 0 < s.count 1 j := by
    intro w copy stage hw hjob hlive
    have hle := le_tally hw fun _ work => workWeight j work
    have hone : workWeight j (copy, stage) = 1 := by simp [workWeight, hjob, hlive]
    unfold count
    omega
  unfold statement at h
  split at h
  · split at h
    · rename_i hc
      cases h
      exact hcall hc (by simp [Call.weight])
    · cases h
  · split at h
    · rename_i hp
      cases h
      exact hpoll hp (by simp [Poll.weight])
    · rename_i hp
      cases h
      exact hpoll hp (by simp [Poll.weight])
    · cases h
  · split at h
    · rename_i hw
      split at h
      · cases h
      · cases h
        exact hwork hw rfl rfl
    · rename_i hw
      cases h
      exact hwork hw rfl rfl
    · rename_i hw
      cases h
      exact hwork hw rfl rfl
    · rename_i hw
      cases h
      exact hwork hw rfl rfl
    · rename_i hw
      cases h
      exact hwork hw rfl rfl
    · cases h
  · split at h
    · rename_i copy rest hd
      cases h
      have hone : 0 < listWeight copy.job s.drained := by
        rw [hd]
        unfold listWeight
        simp
      unfold count
      omega
    · cases h
  · cases h

/-- A statement that makes a job finished is one that finishes it. -/
theorem finishes_of_statement {f : Row → Row} (h : s.statement a = some (j, f))
    (hbefore : row.status.finished = false) (hafter : (f row).status.finished = true) : s.finishes a = some j := by
  have hfailed : ∀ copy nextRetry, (failedRow copy nextRetry row).status.finished = false := by
    intro copy nextRetry
    unfold failedRow
    split <;> rfl
  unfold statement at h
  split at h
  · split at h
    · rename_i hc
      cases h
      simp [finishes, hc]
    · cases h
  · split at h
    · cases h
      cases hafter
    · cases h
      cases hafter
    · cases h
  · split at h
    · split at h
      · cases h
      · cases h
        cases hafter
    · rename_i hw
      cases h
      simp [finishes, hw]
    · cases h
      rw [hfailed] at hafter
      cases hafter
    · cases h
      rw [hbefore] at hafter
      cases hafter
    · rename_i n hw
      cases h
      split at hafter <;> cases hafter
    · cases h
  · split at h
    · cases h
      cases hafter
    · cases h
  · cases h

theorem gained_of_finishes {x job : Nat} (h : s.finishes a = some j) : s.gained x cfg now job a = 0 := by
  unfold finishes at h
  split at h
  · split at h
    · rename_i hc
      simp [gained, hc]
    · cases h
  · rfl
  · cases h

attribute [local simp] setCall setWorker freeWorker endCall removeFromInFlight setStatus updateJob handleJobError_eq

/-- What is in flight stays so, unless the step takes it out. -/
theorem step_inFlight {t : Int} (h : s.inFlight.get? j = some t)
    (hremoves : s.removes a ≠ some j) (hbegin : a = .pollBegin → s.poll ≠ none) (hrestart : a ≠ .restart) :
    ∃ t', (s.step cfg now a).inFlight.get? j = some t' := by
  have htry : ∀ i, ∃ t', (s.tryAddInFlight now i).inFlight.get? j = some t' := by
    intro i
    unfold tryAddInFlight
    split
    · by_cases hj : j = i
      · exact ⟨now, by subst hj; exact get?_put_self _ _ _⟩
      · exact ⟨t, (get?_put_of_ne _ _ hj).trans h⟩
    · exact ⟨t, h⟩
  have herase : ∀ i, i ≠ j → (s.inFlight.erase i).get? j = some t := by
    intro i hi
    rw [get?_erase, if_neg fun hji => hi hji.symm]
    exact h
  cases a with
  | callNext c stopWins =>
    cases hc : s.calls.get? c with
    | none => simpa [step, callNext, hc] using ⟨t, h⟩
    | some call =>
      simp only [removes, hc] at hremoves
      cases call with
      | inserted copy =>
        simp only [step, callNext, hc]
        split
        · exact htry copy.job
        · exact ⟨t, h⟩
      | added copy =>
        simp only [step, callNext, hc]
        split <;> exact ⟨t, h⟩
      | refused copy =>
        simp only [step, callNext, hc]
        exact ⟨t, herase copy.job fun hj => hremoves (congrArg some hj)⟩
      | cancelled i =>
        simp only [step, callNext, hc]
        exact ⟨t, herase i fun hj => hremoves (congrArg some hj)⟩
      | checked | cancelRead => simpa [step, callNext, hc] using ⟨t, h⟩
  | pollNext stopWins =>
    show ∃ t', (s.pollNext cfg now stopWins).inFlight.get? j = some t'
    simp only [removes] at hremoves
    unfold pollNext
    split
    all_goals rename_i hp
    case h_2 =>
      split
      · exact ⟨t, h⟩
      · exact htry _
    case h_3 => split <;> exact ⟨t, h⟩
    case h_4 | h_6 =>
      simp only [hp] at hremoves
      exact ⟨t, herase _ fun hj => hremoves (congrArg some hj)⟩
    all_goals exact ⟨t, h⟩
  | workerNext type worker outcome nextRetry =>
    cases hw : s.workers.get? (type, worker) with
    | none => simpa [step, workerNext, hw] using ⟨t, h⟩
    | some work =>
      obtain ⟨copy, stage⟩ := work
      simp only [removes, hw] at hremoves
      cases stage with
      | taken => cases outcome <;> simpa [step, workerNext, hw] using ⟨t, h⟩
      | failed tracked => cases tracked <;> simpa [step, workerNext, hw] using ⟨t, h⟩
      | done =>
        simp only [step, workerNext, hw]
        exact ⟨t, herase copy.job fun hj => hremoves (congrArg some hj)⟩
      | marked | handling | succeeded | panicked | incremented | counted => simpa [step, workerNext, hw] using ⟨t, h⟩
  | pollBegin =>
    refine ⟨t, ?_⟩
    simp only [step, pollBegin]
    rw [if_neg fun hb => hbegin rfl hb.2]
    exact h
  | restart => exact absurd rfl hrestart
  | enqueue | cancel | pollFetch | take | stop | drain | drainNext | start =>
    refine ⟨t, ?_⟩
    simp only [step, enqueue, cancel, pollFetch, take, drain, drainNext, start]
    repeat' split
    all_goals exact h

/-- The row of a finished job stays as it is. -/
theorem Settled.row_step (h : s.Settled) (hrow : s.jobs.get? j = some row)
    (hfinished : row.status.finished = true) : (s.step cfg now a).jobs.get? j = some row := by
  have hidle := h.idle j (isFinished_iff.mpr ⟨row, hrow, hfinished⟩)
  by_cases ha : a = .start
  · subst ha
    simp only [step, start]
    split
    · exact hrow
    rw [get?_update, hrow]
    have hne : row.status ≠ .running := by
      intro heq
      rw [heq] at hfinished
      cases hfinished
    rw [map_some, if_neg hne]
  · rw [step_jobs a ha]
    unfold rowsAfter
    split
    · have hne : j ≠ s.nextJob := Nat.ne_of_lt (h.known.rows j row hrow)
      rw [get?_put_of_ne _ _ hne]
      exact hrow
    split
    · rename_i i f hst
      have hne : j ≠ i := by
        rintro rfl
        have hpos := statement_counts hst
        omega
      rw [get?_update, hrow, map_some, if_neg hne]
    · exact hrow

/-- Its handler is not called. -/
theorem Settled.starts_step (h : s.Settled) (hfinished : s.isFinished j = true) :
    (s.step cfg now a).starts.count j = s.starts.count j := by
  rw [step_starts, count_append]
  cases hst : s.starting a with
  | none => rfl
  | some i =>
    have hne : i ≠ j := by
      rintro rfl
      have hpos := count_of_starting (x := 1) hst
      have hidle := h.idle i hfinished
      omega
    simp [hne]

/-- A job that is finished after a step was so before, or the step finishes it. -/
theorem finished_step (h : (s.step cfg now a).isFinished j = true) :
    s.isFinished j = true ∨ s.finishes a = some j := by
  obtain ⟨row, hrow, hfinished⟩ := isFinished_iff.mp h
  rcases row_cases hrow with ⟨hinserts, -⟩ | ⟨old, hold, rfl | ⟨-, rfl⟩ | ⟨f, hstatement, rfl⟩⟩
  · -- a new job is queued
    unfold inserts at hinserts
    split at hinserts
    · split at hinserts
      · cases hinserts
        cases hfinished
      · cases hinserts
    · cases hinserts
  · exact .inl (isFinished_iff.mpr ⟨row, hold, hfinished⟩)
  · cases hfinished
  · cases hbefore : old.status.finished with
    | true => exact .inl (isFinished_iff.mpr ⟨old, hold, hbefore⟩)
    | false => exact .inr (finishes_of_statement hstatement hbefore hfinished)

/-- A poll pass lists no finished job. -/
theorem not_finished_of_due (hrow : s.jobs.get? j = some row) (hdue : row.due now = true) :
    s.isFinished j = false := by
  cases hfin : s.isFinished j with
  | false => rfl
  | true =>
    obtain ⟨row', hrow', hfinished⟩ := isFinished_iff.mp hfin
    obtain rfl := some.inj (hrow.symm.trans hrow')
    cases hs : row.status <;> simp_all [Row.due, JobStatus.finished]

section

variable (h : s.Settled)

include h

section

variable (hsettles : s.Settles now a)

include hsettles

theorem Settled.idle_step
    (hfinished : (s.step cfg now a).isFinished j = true) : (s.step cfg now a).count 1 j = 0 := by
  have hcount : (s.step cfg now a).count 1 j + (if s.finishes a = some j then 1 else 0) ≤
      s.count 1 j + s.gained 1 cfg now j a := count_step le_rfl a
  rcases finished_step hfinished with hold | hfin
  · have hidle := h.idle j hold
    have hgained : s.gained 1 cfg now j a = 0 := by
      by_contra hne
      rcases gained_cases hne with ⟨row, -, hrow, hstatus⟩ | ⟨-, rfl⟩ | ⟨hheld, -⟩ | ⟨copy, htakes, rfl, -⟩
      · obtain ⟨row', hrow', hfin⟩ := isFinished_iff.mp hold
        obtain rfl := some.inj (hrow.symm.trans hrow')
        rcases hstatus with hs | hs <;> rw [hs] at hfin <;> cases hfin
      · obtain ⟨row, hrow, -⟩ := isFinished_iff.mp hold
        have hlt := h.known.rows _ row hrow
        omega
      · have hmono := count_mono (s := s) j
        omega
      · obtain ⟨t, ht⟩ := h.listed copy.job hold (isListed_iff.mpr ⟨copy, mem_pollList_of_takesUp htakes, rfl⟩)
        rw [hsettles.2.2 copy htakes hold] at ht
        cases ht
    omega
  · obtain ⟨hone, -⟩ := hsettles.1 j hfin
    have hgained : s.gained 1 cfg now j a = 0 := gained_of_finishes hfin
    rw [if_pos hfin] at hcount
    omega

theorem Settled.listed_step
    (hfinished : (s.step cfg now a).isFinished j = true) (hlisted : (s.step cfg now a).isListed j = true) :
    ∃ t, (s.step cfg now a).inFlight.get? j = some t := by
  obtain ⟨copy, hcopy, hjob⟩ := isListed_iff.mp hlisted
  have hnotRestart : a ≠ .restart := by
    rintro rfl
    cases hcopy
  rcases step_pollList a hcopy with hold | ⟨rfl, hread⟩
  · have hbegin : a = .pollBegin → s.poll ≠ none := by
      rintro - hnone
      unfold pollList at hold
      rw [hnone] at hold
      cases hold
    have hlistedOld : s.isListed j = true := isListed_iff.mpr ⟨copy, hold, hjob⟩
    rcases finished_step hfinished with hfin | hfin
    · obtain ⟨t, ht⟩ := h.listed j hfin hlistedOld
      refine step_inFlight ht ?_ hbegin hnotRestart
      intro hremoves
      have hnot := hsettles.2.1 j hremoves hfin
      rw [hnot] at hlistedOld
      cases hlistedOld
    · obtain ⟨t, ht⟩ := isSome_iff_exists.mp ((hsettles.1 j hfin).2 hlistedOld)
      refine step_inFlight ht ?_ hbegin hnotRestart
      -- who finishes a job takes none out of the set in the same step
      intro hremoves
      unfold finishes at hfin
      unfold removes at hremoves
      split at hfin
      · split at hfin
        · rename_i hc
          simp only [hc] at hremoves
          cases hremoves
        · cases hfin
      · split at hfin
        · rename_i hw
          simp only [hw] at hremoves
          cases hremoves
        · cases hfin
      · cases hfin
  · obtain ⟨row, hrow, hdue, -⟩ := mem_getPendingJobs hread
    have hjobs : (s.step cfg now .pollFetch).jobs = s.jobs := step_jobs .pollFetch (by simp)
    have hnot := not_finished_of_due hrow hdue
    unfold isFinished at hfinished hnot
    rw [hjobs, ← hjob, hnot] at hfinished
    cases hfinished

theorem Settled.step : (s.step cfg now a).Settled :=
  ⟨h.known.step a, fun _ hfinished => h.idle_step hsettles hfinished,
    fun _ hfinished hlisted => h.listed_step hsettles hfinished hlisted⟩

end

theorem Settled.run (hsettles : RunSettles cfg steps s) :
    (run cfg steps s).Settled := by
  induction steps generalizing s with
  | nil => exact h
  | cons head rest ih =>
    obtain ⟨now, a⟩ := head
    obtain ⟨ha, hrest⟩ := hsettles
    exact ih (h.step ha) hrest

/-- From a settled state on, a finished job stays as it is and is not started. -/
theorem Settled.stays (hsettles : RunSettles cfg steps s)
    (hrow : s.jobs.get? j = some row) (hfinished : row.status.finished = true) :
    (State.run cfg steps s).jobs.get? j = some row ∧ (State.run cfg steps s).starts.count j = s.starts.count j := by
  induction steps generalizing s with
  | nil => exact ⟨hrow, rfl⟩
  | cons head rest ih =>
    obtain ⟨now, a⟩ := head
    obtain ⟨ha, hrest⟩ := hsettles
    obtain ⟨hrow', hstarts⟩ := ih (h.step ha) hrest (h.row_step hrow hfinished)
    have hone : (s.step cfg now a).starts.count j = s.starts.count j :=
      h.starts_step (isFinished_iff.mpr ⟨row, hrow, hfinished⟩)
    exact ⟨hrow', hstarts.trans hone⟩

end

theorem Settled.empty : empty.Settled where
  known := Known.empty
  idle := fun _ _ => rfl
  listed := fun _ hfinished => nomatch hfinished

theorem runSettles_append {rest : List (Int × Action)} (h : RunSettles cfg (steps ++ rest) s) :
    RunSettles cfg steps s ∧ RunSettles cfg rest (State.run cfg steps s) := by
  induction steps generalizing s with
  | nil => exact ⟨trivial, h⟩
  | cons head steps ih =>
    obtain ⟨ha, hmore⟩ := h
    obtain ⟨hsteps, hrest⟩ := ih hmore
    exact ⟨⟨ha, hsteps⟩, hrest⟩

end Settled

end State

/-- In a run whose steps settle what they finish, a job that succeeded or was cancelled stays so, and its handler is not
called any more. -/
theorem finished_stays_finished (cfg : Config) (steps rest : List (Int × Action))
    (hsettles : State.RunSettles cfg (steps ++ rest) empty) (j : Nat) (row : Row)
    (hrow : (State.run cfg steps empty).jobs.get? j = some row) (hfinished : row.status.finished = true) :
    (State.run cfg rest (State.run cfg steps empty)).jobs.get? j = some row ∧
      (State.run cfg rest (State.run cfg steps empty)).starts.count j =
        (State.run cfg steps empty).starts.count j := by
  obtain ⟨hsteps, hrest⟩ := runSettles_append hsettles
  exact (State.Settled.empty.run hsteps).stays hrest hrow hfinished

/-! ### Runs -/

def onePool : Config := ⟨fun _ => true, fun _ => 100, fun _ => 2⟩

/-- A job is enqueued and submitted. -/
def submitted : List (Int × Action) :=
  [(0, .start), (1, .enqueue .issuance "a.org".toList "me@a.org".toList 5), (1, .callNext 0 false), (1, .callNext 0 false),
    (1, .callNext 0 false)]

/-- A worker takes the job and its handler ends so. -/
def handled (outcome : Outcome) : List (Int × Action) :=
  [(2, .take .issuance 0), (2, .workerNext .issuance 0 .ok 0), (2, .workerNext .issuance 0 .ok 0),
    (2, .workerNext .issuance 0 outcome 0), (2, .workerNext .issuance 0 .ok 0)]

theorem finished_stays_finished_handled :
    ((State.run onePool (submitted ++ handled .ok) empty).jobs.get? 0).map Row.status = some .succeeded ∧
      (State.run onePool [(3, .workerNext .issuance 0 .ok 0), (4, .pollBegin), (4, .pollFetch)]
        (State.run onePool (submitted ++ handled .ok) empty)).starts.count 0 =
        (State.run onePool (submitted ++ handled .ok) empty).starts.count 0 := by
  refine ⟨by decide +kernel, ?_⟩
  have hsettles : State.RunSettles onePool ((submitted ++ handled .ok) ++
      [(3, .workerNext .issuance 0 .ok 0), (4, .pollBegin), (4, .pollFetch)]) empty := by
    simp only [State.RunSettles, submitted, handled, cons_append, nil_append]
    decide +kernel
  have hrow : (State.run onePool (submitted ++ handled .ok) empty).jobs.get? 0 =
      some { newRow 1 .issuance "a.org".toList 5 with status := .succeeded } := by
    decide +kernel
  exact (finished_stays_finished onePool _ _ hsettles 0 _ hrow rfl).2

/-- A job is cancelled while it waits in the channel, and a worker takes it all the same. -/
def cancelled : List (Int × Action) := submitted ++ [(2, .cancel 0), (2, .callNext 1 false), (2, .callNext 1 false)]

/-- A job's first try fails; a poll pass submits it again, and a worker is through with it before the pass has written
that it is queued. -/
def retried : List (Int × Action) :=
  submitted ++ handled .error ++ [(2, .workerNext .issuance 0 .ok 0), (3, .pollBegin), (3, .pollFetch), (3, .pollNext false),
    (3, .pollNext false)] ++ handled .ok

theorem finished_job_revived : ((State.run onePool cancelled empty).jobs.get? 0).map Row.status = some .cancelled ∧
      (State.run onePool ((handled .ok).take 3) (State.run onePool cancelled empty)).starts = [0] ∧
      ((State.run onePool retried empty).jobs.get? 0).map Row.status = some .succeeded ∧
      ((State.run onePool [(4, .pollNext false)] (State.run onePool retried empty)).jobs.get? 0).map Row.status =
        some .queued ∧
      ¬ ∀ (cfg : Config) (steps rest : List (Int × Action)) (j : Nat) (row : Row),
        (State.run cfg steps empty).jobs.get? j = some row → row.status.finished = true →
        (State.run cfg rest (State.run cfg steps empty)).jobs.get? j = some row ∧
          (State.run cfg rest (State.run cfg steps empty)).starts.count j =
            (State.run cfg steps empty).starts.count j := by
  have hstarts : (State.run onePool ((handled .ok).take 3) (State.run onePool cancelled empty)).starts = [0] := by
    decide +kernel
  refine ⟨by decide +kernel, hstarts, by decide +kernel, by decide +kernel, fun hall => ?_⟩
  have hrow : (State.run onePool cancelled empty).jobs.get? 0 =
      some { newRow 1 .issuance "a.org".toList 5 with status := .cancelled } := by
    decide +kernel
  have hnone : (State.run onePool cancelled empty).starts = [] := by decide +kernel
  have hcount := (hall onePool cancelled ((handled .ok).take 3) 0 _ hrow rfl).2
  cases hcount

end LibreServ.Jobs
