import LibreServ.Paths
import LibreServ.Tally

/-! Sol's queue of certificate jobs, from `jobqueue/queue.go`, `worker.go` and `database.go`. A job is a row of
`acme_jobs`, and besides copies of it are under way: in an `Enqueue` call, in the list of a poll pass, in a pool's
channel, with a worker. Every statement, every send and every receive is a step of its own. -/

namespace LibreServ.Jobs

open Files (Text)

inductive JobType where
  | issuance
  | renewal
  | revocation
  | validation
  deriving DecidableEq

inductive JobStatus where
  | pending
  | queued
  | running
  | succeeded
  | failed
  | cancelled
  deriving DecidableEq

/-- Nanoseconds. -/
def defaultJobTimeout : Int := 5 * 60 * 10 ^ 9

def defaultPollBatchSize : Nat := 50

def maxPanicRetries : Nat := 3

def priorityCritical : Int := 1

def priorityLowest : Int := 9

def defaultMaxRetries : JobType → Nat
  | .issuance => 3
  | .renewal => 5
  | .revocation => 2
  | .validation => 3

/-- What a row of `acme_jobs` has that a step reads. -/
structure Row where
  type : JobType
  domain : Text
  status : JobStatus
  priority : Int
  retryCount : Nat
  maxRetries : Nat
  panicCount : Nat
  nextRetryAt : Option Int
  createdAt : Int
  deriving DecidableEq

/-- A job in memory, as it was when it was created or read. -/
structure Copy where
  job : Nat
  type : JobType
  status : JobStatus
  retryCount : Nat
  maxRetries : Nat
  nextRetryAt : Option Int
  deriving DecidableEq

def Row.copy (row : Row) (job : Nat) : Copy :=
  ⟨job, row.type, row.status, row.retryCount, row.maxRetries, row.nextRetryAt⟩

/-- `Enqueue` and `CancelJob`, between their steps. -/
inductive Call where
  /-- `CreateJob` found no job like it. -/
  | checked (type : JobType) (domain : Text) (priority : Int)
  /-- The row is there. -/
  | inserted (copy : Copy)
  /-- In flight, before `Submit`. -/
  | added (copy : Copy)
  /-- `Submit` failed. -/
  | refused (copy : Copy)
  /-- `CancelJob` found the job pending or queued. -/
  | cancelRead (job : Nat)
  /-- The row says cancelled. -/
  | cancelled (job : Nat)
  deriving DecidableEq

/-- What the poll pass is doing with the job in hand. -/
inductive Hand where
  /-- In flight, before `Submit`. -/
  | added
  /-- `Submit` failed. -/
  | refused
  /-- Submitted, before the row says queued. -/
  | submitted
  /-- No pool for the type. -/
  | noPool
  /-- No pool, and no longer in flight. -/
  | unowned
  deriving DecidableEq

inductive Poll where
  /-- Stale entries are gone, before the pending jobs are read. -/
  | cleaned
  /-- The jobs still to come, and the one in hand. -/
  | going (jobs : List Copy) (hand : Option (Copy × Hand))
  deriving DecidableEq

/-- Where a worker is in `processJob`. -/
inductive Stage where
  /-- Received, before `MarkJobRunning`. -/
  | taken
  /-- Before the handler is called. -/
  | marked
  /-- The handler is running. -/
  | handling
  | succeeded
  /-- Before the row is written; `tracked` says that the job leaves the in-flight set afterwards. -/
  | failed (tracked : Bool)
  | panicked
  /-- The panic was counted. -/
  | incremented
  /-- The count was read. -/
  | counted (panicCount : Nat)
  /-- The row is written. -/
  | done
  deriving DecidableEq

structure State where
  jobs : Table Nat Row
  nextJob : Nat
  inFlight : Table Nat Int
  /-- The pools' channels, in one list. -/
  waiting : List Copy
  workers : Table (JobType × Nat) (Copy × Stage)
  calls : Table Nat Call
  nextCall : Nat
  poll : Option Poll
  started : Bool
  stopped : Bool
  /-- Taken out of a channel by `Stop`, before the row says pending. -/
  drained : List Copy
  /-- Whose handler was called, for the record. -/
  starts : List Nat

/-- The pools. -/
structure Config where
  hasPool : JobType → Bool
  queueSize : JobType → Nat
  workerCount : JobType → Nat

/-- How a worker's statement or its handler ends. -/
inductive Outcome where
  | ok
  | error
  | panic
  deriving DecidableEq

inductive Action where
  | enqueue (type : JobType) (domain email : Text) (priority : Int)
  | cancel (job : Nat)
  /-- A call takes its next step; `stopWins` matters where `Submit` may do either. -/
  | callNext (call : Nat) (stopWins : Bool)
  | pollBegin
  | pollFetch
  | pollNext (stopWins : Bool)
  | take (type : JobType) (worker : Nat)
  /-- A worker takes its next step; `nextRetry` is what `CalculateNextRetry` gives. -/
  | workerNext (type : JobType) (worker : Nat) (outcome : Outcome) (nextRetry : Int)
  | stop
  | drain (type : JobType)
  | drainNext
  /-- The process ends, and another begins. -/
  | restart
  | start

/-! ### Statements and the in-flight set -/

def byteLen (t : Text) : Nat := (t.map Char.utf8Size).sum

def validateJobInput (domain email : Text) (priority : Int) : Bool :=
  domain ≠ [] && byteLen domain ≤ 253 && email ≠ [] && byteLen email ≤ 254 && '@' ∈ email &&
    priorityCritical ≤ priority && priority ≤ priorityLowest

def JobStatus.active : JobStatus → Bool
  | .pending | .queued | .running => true
  | _ => false

/-- `GetPendingJobs` selects the row. -/
def Row.due (row : Row) (now : Int) : Bool :=
  match row.status with
  | .pending | .queued => true
  | .failed => row.retryCount < row.maxRetries && row.panicCount < maxPanicRetries && row.nextRetryAt.all (· ≤ now)
  | _ => false

/-- A failed job whose time has not come, by `ShouldRetryNow`. -/
def Copy.tooEarly (copy : Copy) (now : Int) : Bool := copy.status = .failed && !copy.nextRetryAt.all (· < now)

/-- `ORDER BY priority ASC, created_at ASC`. -/
def Row.before (a b : Row) : Bool := a.priority < b.priority || a.priority = b.priority && a.createdAt ≤ b.createdAt

namespace State

variable (s : State) (cfg : Config)

def empty : State := ⟨Table.empty, 0, Table.empty, [], Table.empty, Table.empty, 0, none, false, false, [], []⟩

/-- `UPDATE acme_jobs … WHERE id = ?`. -/
def updateJob (job : Nat) (f : Row → Row) : State :=
  { s with jobs := s.jobs.update fun j row => if j = job then f row else row }

def setStatus (job : Nat) (status : JobStatus) : State := s.updateJob job fun row => { row with status := status }

def hasPendingOrQueuedJob (domain : Text) (type : JobType) : Bool :=
  s.jobs.any fun _ row => row.domain = domain && row.type = type && row.status.active

def addCall (call : Call) : State := { s with calls := s.calls.put s.nextCall call, nextCall := s.nextCall + 1 }

def setCall (c : Nat) (call : Call) : State := { s with calls := s.calls.put c call }

def endCall (c : Nat) : State := { s with calls := s.calls.erase c }

/-- `tryAddInFlight` would add the job. -/
def canAdd (now : Int) (job : Nat) : Bool := (s.inFlight.get? job).all fun submitTime => ¬ now - submitTime < 2 * defaultJobTimeout

def tryAddInFlight (now : Int) (job : Nat) : State :=
  if s.canAdd now job then { s with inFlight := s.inFlight.put job now } else s

def removeFromInFlight (job : Nat) : State := { s with inFlight := s.inFlight.erase job }

/-- `Submit` sends the job; a pool that is stopped may still take it. -/
def accepts (stopWins : Bool) (copy : Copy) : Bool :=
  (s.waiting.filter fun c => c.type = copy.type).length < cfg.queueSize copy.type && !(s.stopped && stopWins)

def send (copy : Copy) : State := { s with waiting := s.waiting ++ [copy] }

/-! ### `Enqueue` and `CancelJob` -/

def enqueue (type : JobType) (domain email : Text) (priority : Int) : State :=
  if cfg.hasPool type && validateJobInput domain email priority && !s.hasPendingOrQueuedJob domain type then
    s.addCall (.checked type domain priority)
  else s

def cancel (job : Nat) : State :=
  match s.jobs.get? job with
  | some row => if row.status = .pending ∨ row.status = .queued then s.addCall (.cancelRead job) else s
  | none => s

/-- The row `CreateJob` inserts. -/
def newRow (now : Int) (type : JobType) (domain : Text) (priority : Int) : Row :=
  ⟨type, domain, .queued, priority, 0, defaultMaxRetries type, 0, none, now⟩

def callNext (now : Int) (c : Nat) (stopWins : Bool) : State :=
  match s.calls.get? c with
  | none => s
  | some (.checked type domain priority) =>
    let row := newRow now type domain priority
    { s with jobs := s.jobs.put s.nextJob row, nextJob := s.nextJob + 1 }.setCall c (.inserted (row.copy s.nextJob))
  | some (.inserted copy) => if s.started then (s.tryAddInFlight now copy.job).setCall c (.added copy) else s.endCall c
  | some (.added copy) => if s.accepts cfg stopWins copy then (s.send copy).endCall c else s.setCall c (.refused copy)
  | some (.refused copy) => (s.removeFromInFlight copy.job).endCall c
  | some (.cancelRead job) => (s.setStatus job .cancelled).setCall c (.cancelled job)
  | some (.cancelled job) => (s.removeFromInFlight job).endCall c

/-! ### `pollPendingJobs` -/

def pollBegin (now : Int) : State :=
  if s.started ∧ s.poll = none then
    { s with
      inFlight := s.inFlight.keep fun _ submitTime => ¬ now - submitTime > 2 * defaultJobTimeout
      poll := some .cleaned }
  else s

def getPendingJobs (now : Int) : List Copy :=
  let rows := (s.jobs.select fun _ row => row.due now).mergeSort fun a b => a.2.before b.2
  (rows.take defaultPollBatchSize).map fun r => r.2.copy r.1

def pollFetch (now : Int) : State :=
  match s.poll with
  | some .cleaned => { s with poll := some (.going (s.getPendingJobs now) none) }
  | _ => s

def setPoll (jobs : List Copy) (hand : Option (Copy × Hand)) : State := { s with poll := some (.going jobs hand) }

def pollNext (now : Int) (stopWins : Bool) : State :=
  match s.poll with
  | some (.going [] none) => { s with poll := none }
  | some (.going (copy :: rest) none) =>
    if copy.tooEarly now || !s.canAdd now copy.job then s.setPoll rest none
    else (s.tryAddInFlight now copy.job).setPoll rest (some (copy, if cfg.hasPool copy.type then .added else .noPool))
  | some (.going rest (some (copy, .added))) =>
    if s.accepts cfg stopWins copy then
      (s.send copy).setPoll rest (if copy.status = .queued then none else some (copy, .submitted))
    else s.setPoll rest (some (copy, .refused))
  | some (.going rest (some (copy, .refused))) => (s.removeFromInFlight copy.job).setPoll rest none
  | some (.going rest (some (copy, .submitted))) => (s.setStatus copy.job .queued).setPoll rest none
  | some (.going rest (some (copy, .noPool))) => (s.removeFromInFlight copy.job).setPoll rest (some (copy, .unowned))
  | some (.going rest (some (copy, .unowned))) => (s.setStatus copy.job .failed).setPoll rest none
  | _ => s

/-! ### Workers -/

def setWorker (w : JobType × Nat) (copy : Copy) (stage : Stage) : State :=
  { s with workers := s.workers.put w (copy, stage) }

def freeWorker (w : JobType × Nat) : State := { s with workers := s.workers.erase w }

/-- A free worker receives the first job of its pool's channel. -/
def take (type : JobType) (worker : Nat) : State :=
  match s.waiting.find? (fun c => c.type = type) with
  | some copy =>
    if worker < cfg.workerCount type ∧ s.workers.get? (type, worker) = none then
      { s with waiting := s.waiting.erase copy }.setWorker (type, worker) copy .taken
    else s
  | none => s

/-- `handleJobError`: another try, or none. -/
def handleJobError (copy : Copy) (nextRetry : Int) : State :=
  if copy.retryCount + 1 < copy.maxRetries then
    s.updateJob copy.job fun row =>
      { row with status := .pending, retryCount := copy.retryCount + 1, nextRetryAt := some nextRetry }
  else s.setStatus copy.job .failed

def workerNext (w : JobType × Nat) (outcome : Outcome) (nextRetry : Int) : State :=
  match s.workers.get? w with
  | none => s
  | some (copy, .taken) =>
    match outcome with
    | .error => s.setWorker w copy (.failed false)
    | _ => (s.setStatus copy.job .running).setWorker w copy .marked
  | some (copy, .marked) => { s with starts := s.starts ++ [copy.job] }.setWorker w copy .handling
  | some (copy, .handling) =>
    s.setWorker w copy (match outcome with
      | .ok => .succeeded
      | .error => .failed true
      | .panic => .panicked)
  | some (copy, .succeeded) => (s.setStatus copy.job .succeeded).setWorker w copy .done
  | some (copy, .failed tracked) =>
    if tracked then (s.handleJobError copy nextRetry).setWorker w copy .done
    else (s.handleJobError copy nextRetry).freeWorker w
  | some (copy, .panicked) =>
    (s.updateJob copy.job fun row => { row with panicCount := row.panicCount + 1 }).setWorker w copy .incremented
  | some (copy, .incremented) => s.setWorker w copy (.counted (((s.jobs.get? copy.job).map Row.panicCount).getD 0))
  | some (copy, .counted panicCount) =>
    (s.setStatus copy.job (if maxPanicRetries ≤ panicCount then .failed else .pending)).setWorker w copy .done
  | some (copy, .done) => (s.removeFromInFlight copy.job).freeWorker w

/-! ### Stopping and starting -/

/-- `Stop` takes a job out of a channel when the pool's workers are through. -/
def drain (type : JobType) : State :=
  if s.stopped && !s.workers.any (fun w _ => w.1 = type) then
    match s.waiting.find? (fun c => c.type = type) with
    | some copy => { s with waiting := s.waiting.erase copy, drained := s.drained ++ [copy] }
    | none => s
  else s

/-- `returnJobToPending`. -/
def drainNext : State :=
  match s.drained with
  | copy :: rest => { s.setStatus copy.job .pending with drained := rest }
  | [] => s

/-- Only the rows are left. -/
def restart : State := { empty with jobs := s.jobs, nextJob := s.nextJob, nextCall := s.nextCall, starts := s.starts }

/-- `Start`: `recoverJobs` turns every running job into a failed one, so none is left to track. -/
def start : State :=
  if s.started ∨ s.stopped then s
  else
    { s with
      jobs := s.jobs.update fun _ row => if row.status = .running then { row with status := .failed } else row
      started := true }

def step (now : Int) : Action → State
  | .enqueue type domain email priority => s.enqueue cfg type domain email priority
  | .cancel job => s.cancel job
  | .callNext c stopWins => s.callNext cfg now c stopWins
  | .pollBegin => s.pollBegin now
  | .pollFetch => s.pollFetch now
  | .pollNext stopWins => s.pollNext cfg now stopWins
  | .take type worker => s.take cfg type worker
  | .workerNext type worker outcome nextRetry => s.workerNext (type, worker) outcome nextRetry
  | .stop => if s.started then { s with started := false, stopped := true } else s
  | .drain type => s.drain type
  | .drainNext => s.drainNext
  | .restart => s.restart
  | .start => s.start

def run : List (Int × Action) → State → State
  | [], s => s
  | (now, a) :: rest, s => run rest (s.step cfg now a)

end State

end LibreServ.Jobs
