import LibreServ.DepthFirst
import LibreServ.Paths

/-! The build graph of the release tool (`engine/graph.go`): jobs that depend on one another by name. `Validate` looks
for unknown names and for cycles; `Run` starts what is ready, within two caps, and takes the jobs' ends one by one.
Jobs are spoken of by their place in insertion order, as the code's own tables do. -/

namespace LibreServ.BuildGraph

open Files (Text)

inductive Status where
  | pending
  | running
  | succeeded
  | failed
  | cancelled
  | skipped
  deriving DecidableEq, Repr

/-- `s >= Succeeded`. -/
def Status.Done : Status → Bool
  | .pending => false
  | .running => false
  | .succeeded => true
  | .failed => true
  | .cancelled => true
  | .skipped => true

structure Job where
  id : Text
  deps : List Text
  heavy : Bool
  deriving DecidableEq

/-- No two jobs have one name: `Add` sees to that. -/
structure Graph where
  jobs : List Job
  unique : (jobs.map Job.id).Nodup

inductive GraphError where
  | noId
  | duplicate (id : Text)
  | unknown (job dep : Text)
  | itself (job : Text)
  | cycle (path : List Text) (dep : Text)
  /-- Never given: see `validate_says`. -/
  | deep
  deriving DecidableEq

namespace Graph

def empty : Graph := ⟨[], List.nodup_nil⟩

def add (g : Graph) (j : Job) : Except GraphError Graph :=
  if j.id = [] then .error .noId
  else if hdup : j.id ∈ g.jobs.map Job.id then .error (.duplicate j.id)
  else
    .ok {
      jobs := g.jobs ++ [j]
      unique := by
        rw [List.map_append, List.map_singleton, ← List.concat_eq_append]
        exact List.Nodup.concat hdup g.unique
    }

variable (g : Graph)

def size : ℕ := g.jobs.length

/-- The map from names to places. -/
def index (id : Text) : Option ℕ := g.jobs.findIdx? fun j => j.id = id

def id (i : ℕ) : Text := (g.jobs[i]?.map Job.id).getD []

def heavy (i : ℕ) : Bool := (g.jobs[i]?.map Job.heavy).getD false

/-- The places of a job's dependencies. A name the map does not have reads as zero. -/
def deps (i : ℕ) : List ℕ := ((g.jobs[i]?.map Job.deps).getD []).map fun d => (g.index d).getD 0

/-- The jobs that depend on one, as often as they name it. -/
def dependents (k : ℕ) : List ℕ := (List.range g.size).flatMap fun i => ((g.deps i).filter (· = k)).map fun _ => i

/-! ### `Validate` -/

def checkDep (j : Job) (d : Text) : Except GraphError Unit :=
  if g.index d = none then .error (.unknown j.id d) else if d = j.id then .error (.itself j.id) else .ok ()

def checkDeps : Except GraphError Unit := forM g.jobs fun j => forM j.deps (g.checkDep j)

def checkCycles : Except GraphError Unit :=
  match DepthFirst.search g.deps g.size (List.range g.size) with
  | .ok _ => .ok ()
  | .error (.cycle path k) => .error (.cycle (path.map g.id) (g.id k))
  | .error .deep => .error .deep

def validate : Except GraphError Unit := do
  g.checkDeps
  g.checkCycles

end Graph

/-! ### `Run` -/

structure Options where
  jobs : ℤ
  heavyJobs : ℤ
  failFast : Bool
  deriving DecidableEq

/-- The options with their defaults. -/
def Options.settled (opts : Options) (numCPU : ℤ) : Options :=
  let jobs := if opts.jobs ≤ 0 then numCPU else opts.jobs
  let heavyJobs := if opts.heavyJobs ≤ 0 then 2 else opts.heavyJobs
  { opts with jobs := jobs, heavyJobs := if heavyJobs > jobs then jobs else heavyJobs }

/-- What a job's `Run` returns. Of an error the scheduler asks whether it is a cancellation (or a deadline). -/
inductive Outcome where
  | ok
  | err (canceled : Bool)
  deriving DecidableEq

/-- `JobResult.Err`. -/
inductive JobError where
  | returned (canceled : Bool)
  | cancelledBeforeStart
  | dependencyCancelled (job : Text)
  | dependencyFailed (job : Text)
  deriving DecidableEq

/-- The events, and when the run was stopped. -/
inductive Mark where
  | queued (i : ℕ)
  | started (i : ℕ)
  | finished (i : ℕ) (st : Status)
  | stopped
  | graphDone
  deriving DecidableEq

/-- The main loop is at its head, waits for a job's end, or is over. -/
inductive Phase where
  | top
  | waiting
  | ended
  deriving DecidableEq

structure Run where
  status : ℕ → Status
  err : ℕ → Option JobError
  remaining : ℕ → ℤ
  ready : List ℕ
  running : ℤ
  runningHeavy : ℤ
  final : ℤ
  stopping : Bool
  cancelled : Bool
  phase : Phase
  trace : List Mark

namespace Run

def finish (s : Run) (i : ℕ) (st : Status) (err : Option JobError) : Run :=
  { s with
    status := Function.update s.status i st
    err := Function.update s.err i err
    final := s.final + 1
    trace := s.trace ++ [.finished i st] }

def stop (s : Run) : Run := { s with stopping := true, trace := s.trace ++ [.stopped] }

def endGraph (s : Run) : Run := { s with phase := .ended, trace := s.trace ++ [.graphDone] }

/-- A dependency less to wait for. -/
def settle (s : Run) (d : ℕ) : Run :=
  let s := { s with remaining := Function.update s.remaining d (s.remaining d - 1) }
  if s.remaining d = 0 ∧ s.status d = .pending then { s with ready := s.ready ++ [d] } else s

end Run

namespace Graph

variable (g : Graph)

def init : Run where
  status := fun _ => .pending
  err := fun _ => none
  remaining := fun i => (g.deps i).length
  ready := (List.range g.size).filter fun i => (g.deps i).length = 0
  running := 0
  runningHeavy := 0
  final := 0
  stopping := false
  cancelled := false
  phase := .top
  trace := (List.range g.size).map .queued

/-- A job and everything downstream of it. -/
def skip : ℕ → ℕ → JobError → Run → Run
  | 0, _, _, s => s
  | depth + 1, i, cause, s =>
    if s.status i ≠ .pending then s
    else
      -- Reserved before recursing, and written once more by `finish`.
      let s := { s with status := Function.update s.status i .skipped }
      let s := s.finish i .skipped (some cause)
      (g.dependents i).foldl (fun s d => skip depth d cause s) s

def launch (s : Run) (i : ℕ) : Run :=
  { s with
    status := Function.update s.status i .running
    running := s.running + 1
    runningHeavy := if g.heavy i then s.runningHeavy + 1 else s.runningHeavy
    trace := s.trace ++ [.started i] }

variable (opts : Options)

/-- One of the ready jobs: it is started, or stays among the `rest`. -/
def tryStart (s : Run) (i : ℕ) : Run :=
  if s.running ≥ opts.jobs ∨ (g.heavy i ∧ s.runningHeavy ≥ opts.heavyJobs) then { s with ready := s.ready ++ [i] }
  else g.launch s i

/-- Start ready jobs in insertion order, honouring both caps. -/
def startReady (s : Run) : Run := s.ready.foldl (g.tryStart opts) { s with ready := [] }

/-- Anything not yet started will never run. -/
def skipAll (s : Run) : Run :=
  let s := (List.range g.size).foldl
    (fun s i => if s.status i = .pending then g.skip g.size i .cancelledBeforeStart s else s) s
  { s with ready := [] }

/-- From the loop's head to where it waits for a job. -/
def turn (s : Run) : Run :=
  if ¬ s.final < g.size then s.endGraph
  else
    let s := if s.stopping = false ∧ s.cancelled = true then s.stop else s
    let s := if s.stopping then g.skipAll s else g.startReady opts s
    if s.final ≥ g.size then s.endGraph
    else if s.running = 0 then if s.ready.length = 0 then s.endGraph else s
    else { s with phase := .waiting }

/-- A job has ended. -/
def receive (i : ℕ) (out : Outcome) (s : Run) : Run :=
  let s :=
    { s with
      phase := .top
      running := s.running - 1
      runningHeavy := if g.heavy i then s.runningHeavy - 1 else s.runningHeavy }
  match out with
  | .ok => (g.dependents i).foldl Run.settle (s.finish i .succeeded none)
  | .err canceled =>
    if s.cancelled ∧ canceled then
      (g.dependents i).foldl (fun s d => g.skip g.size d (.dependencyCancelled (g.id i)) s)
        (s.finish i .cancelled (some (.returned canceled)))
    else
      let s := (g.dependents i).foldl (fun s d => g.skip g.size d (.dependencyFailed (g.id i)) s)
        (s.finish i .failed (some (.returned canceled)))
      if opts.failFast then { s.stop with cancelled := true } else s

/-- What happens next: the loop goes on, a job's end arrives, or the caller cancels. -/
inductive Action where
  | turn
  | receive (i : ℕ) (out : Outcome)
  | cancel
  deriving DecidableEq

def step (s : Run) : Action → Option Run
  | .turn => if s.phase = .top then some (g.turn opts s) else none
  | .receive i out =>
    if s.phase = .waiting ∧ i < g.size ∧ s.status i = .running then some (g.receive opts i out s) else none
  | .cancel => some { s with cancelled := true }

/-- `Run` up to its loop. -/
def start : Except GraphError Run := do
  g.validate
  .ok g.init

def run (s : Run) (actions : List Action) : Option Run := actions.foldlM (g.step opts) s

end Graph

end LibreServ.BuildGraph
