import LibreServ.ReleaseFeeds
import LibreServ.Stoppable

/-! The cut of a release, from `release/publish/cut.go`. A cut goes through eight steps and writes down after each how
far it is, so that a later run takes it up where it stopped. A run asks the outside (git, the build, the registry,
the disk) for one thing after the other. Where there is no further answer the process has died. -/

namespace LibreServ.Publish

open Files (Text)

/-! ### What a run works on -/

inductive Step where
  | bump
  | build
  | sign
  | upload
  | verify
  | feed
  | mirror
  | tag
  deriving DecidableEq

def steps : List Step := [.bump, .build, .sign, .upload, .verify, .feed, .mirror, .tag]

def sumsName : Text := "SHA256SUMS.txt".toList

def sumsSigName : Text := "SHA256SUMS.txt.minisig".toList

/-- A directory: the regular files directly inside, and the other paths under it. -/
structure Dir where
  files : Table Text FileInfo
  others : List Text

/-- The persisted progress of one cut. -/
structure State where
  channel : Text
  sha : Text
  published : Text
  notes : Text
  outDir : Text
  done : List Step

/-- The files the registry holds for this release. -/
abbrev Registry := Table Text FileInfo

/-- What a run puts where others read it, with what the registry held at that time. -/
inductive Entry where
  /-- A feed that stands on the branch after a commit; it was pushed, or stood there already. -/
  | feed (pushed : Bool) (channel : Text) (parts : List PartSpec) (feed : Feed) (registry : Registry)
  | tag (channel : Text) (branch : Branch) (registry : Registry)

/-- What outlives a run. -/
structure World where
  registry : Registry
  dirs : Table Text Dir
  /-- The directory the tool is started in. -/
  cwd : Dir
  branch : Branch
  /-- The commit the tag names on Forgejo, and the one it names in the checkout. -/
  tag : Option Text
  localTag : Option Text
  saved : Table Text State
  finished : Table Text State
  /-- The newest first. -/
  log : List Entry

inductive Reply where
  | refused
  | goes
  | sha (sha : Text)
  /-- The directories after a build, and the one it returns. -/
  | built (out : Option Text) (dirs : Table Text Dir)
  | resolved (parts : List PartSpec) (api : Option Api)
  /-- A write that failed halfway. -/
  | torn (left : FileInfo)
  /-- Whether the file reached the registry, and the status that came back. -/
  | put (arrives : Bool) (code : Option Nat)
  | pushed
  /-- The push arrived, and git reports a failure all the same. -/
  | pushLost
  | rejected

inductive Stop where
  | crashed
  | failed
  | version (version : Text)
  | cutExists
  | severalCuts
  | tagExists
  | otherChannel (saved : Text)
  | notProduced
  | nothingBuilt
  | conflict (file : Text)
  | feed (err : FeedError)
  | tagElsewhere

/-- What all runs for one unit and version share. -/
structure Tools where
  unit : Text
  version : Text
  hash : Text → FileInfo
  sign : Text → Text → Text
  urlFor : Text → Text → Text

/-- What is given to one run. -/
structure Config where
  channel : Text
  notes : Text
  published : Text
  api : Option Api
  parts : List PartSpec
  /-- Whether there is a `Resolve`. -/
  resolves : Bool
  resume : Bool
  retries : Nat
  now : Text

def Config.release (t : Tools) (cfg : Config) : Release :=
  ⟨t.unit, t.version, cfg.channel, cfg.notes, cfg.published, cfg.api, cfg.parts⟩

/-- A run: the world, the answers to come, and what the process has in memory. -/
structure CutRun where
  world : World
  replies : List Reply
  release : Release
  st : State
  statePath : Option Text
  tagSeen : Bool

abbrev Cutting := EStateM Stop CutRun

def ask : Cutting Reply := fun c =>
  match c.replies with
  | [] => .error .crashed c
  | reply :: rest => .ok reply { c with replies := rest }

/-- A call that goes through or fails, and changes nothing here. -/
def goes : Cutting Unit := do
  match ← ask with
  | .refused => throw .failed
  | _ => pure ()

def setWorld (f : World → World) : Cutting Unit := modify fun c => { c with world := f c.world }

def setState (f : State → State) : Cutting Unit := modify fun c => { c with st := f c.st }

/-! ### The output directory -/

/-- `OutputFiles`, by name. -/
def Dir.output (d : Dir) : Files := fun name =>
  if name = sumsName ∨ name = sumsSigName then none else d.files.get? name

def Dir.outputFiles (d : Dir) : List Text :=
  (d.files.keys.filter fun name => name ≠ sumsName ∧ name ≠ sumsSigName).mergeSort fun a b => decide (a ≤ b)

def Dir.holds (d : Dir) (file : Text) : Bool := (d.files.get? file).isSome || d.others.contains file

/-- The directory at a path; there is none at the empty one. -/
def World.opened (w : World) (path : Text) : Option Dir := if path = [] then none else w.dirs.get? path

/-- Whether `path/file` is there; without a path it is looked for in the working directory. -/
def World.holds (w : World) (path file : Text) : Bool :=
  if path = [] then w.cwd.holds file
  else
    match w.dirs.get? path with
    | none => false
    | some d => d.holds file

def World.write (w : World) (path file : Text) (info : FileInfo) : World :=
  { w with dirs := w.dirs.update fun p d => if p = path then { d with files := d.files.put file info } else d }

/-- The content of `SHA256SUMS.txt`. -/
def sumsText (files : Files) : List Text → Text
  | [] => []
  | name :: names =>
    ((files name).map FileInfo.sha256).getD [] ++ "  ".toList ++ name ++ ['\n'] ++ sumsText files names

/-- `Sums`. -/
def sums (path : Text) : Cutting (Text × Files) := do
  goes
  match (← get).world.opened path with
  | none => throw .failed
  | some d =>
    if d.outputFiles = [] then throw .nothingBuilt
    else pure (sumsText d.output d.outputFiles, d.output)

def writeFile (path file : Text) (info : FileInfo) : Cutting Unit := do
  match ← ask with
  | .refused => throw .failed
  | .torn left => do
    setWorld fun w => w.write path file left
    throw .failed
  | _ => setWorld fun w => w.write path file info

def sumsComment (unit version : Text) : Text := "libreserv release ".toList ++ unit ++ [' '] ++ version

/-- `WriteSigned`. -/
def writeSigned (t : Tools) (path : Text) : Cutting Unit := do
  let (content, _) ← sums path
  goes
  writeFile path sumsName (t.hash content)
  writeFile path sumsSigName (t.hash (t.sign content (sumsComment t.unit t.version)))

/-! ### Saved states -/

/-- The name of a state file, without unit and version. -/
def stateName (sha : Text) : Text := sha.take 12

def CutRun.saved (c : CutRun) : CutRun :=
  { c with
    world := { c.world with saved := c.world.saved.put (stateName c.st.sha) c.st }
    statePath := some (stateName c.st.sha) }

def save : Cutting Unit := do
  let c ← get
  if c.st.sha = [] then pure ()
  else do
    goes
    modify CutRun.saved

/-! ### Steps -/

/-- `source`: the release commit is there, or is fetched. -/
def source : Cutting Unit := goes

def resolve (cfg : Config) : Cutting Unit := do
  if cfg.resolves then do
    source
    match ← ask with
    | .resolved parts api => modify fun c => { c with release := { c.release with parts := parts, api := api } }
    | _ => throw .failed
  else pure ()

/-- `Git.Bump`, which never answers with an empty SHA. -/
def bump : Cutting Text := do
  match ← ask with
  | .sha sha => if sha = [] then throw .failed else pure sha
  | _ => throw .failed

/-- `TagPointsAt`; a missing copy is fine. -/
def World.tagPointsAt (w : World) (sha : Text) : Bool :=
  w.localTag.all (fun cur => cur = sha) && w.tag.all (fun cur => cur = sha)

def checkTag (sha : Text) : Cutting Unit := do
  let c ← get
  if c.tagSeen then do
    goes
    if c.world.tagPointsAt sha then pure () else throw .tagElsewhere
  else pure ()

def stepBump : Cutting Unit := do
  let sha ← bump
  checkTag sha
  setState fun st => { st with sha := sha }
  save

/-- `Config.Build`, which may leave anything on the disk. -/
def runBuild : Cutting Text := do
  match ← ask with
  | .built out dirs => do
    setWorld fun w => { w with dirs := dirs }
    match out with
    | some path => pure path
    | none => throw .failed
  | _ => throw .failed

def stepBuild (cfg : Config) : Cutting Unit := do
  source
  let out ← runBuild
  resolve cfg
  let c ← get
  if c.release.parts.all fun p => decide (p.version ≠ []) || c.world.holds out p.file then
    setState fun st => { st with outDir := out }
  else throw .notProduced

def outDir (t : Tools) (cfg : Config) : Cutting Text := do
  let c ← get
  match c.world.opened c.st.outDir with
  | some _ => pure c.st.outDir
  | none => do
    stepBuild cfg
    let c ← get
    writeSigned t c.st.outDir
    save
    pure c.st.outDir

def stepSign (t : Tools) (cfg : Config) : Cutting Unit := do
  let dir ← outDir t cfg
  writeSigned t dir

/-- Every file for the registry, the sums last. -/
def uploadList : Cutting (List Text) := do
  let c ← get
  if c.st.outDir = [] then pure []
  else
    match c.world.opened c.st.outDir with
    | none => throw .failed
    | some d => pure (d.outputFiles ++ [sumsName, sumsSigName])

def hashFile (path file : Text) : Cutting FileInfo := do
  goes
  match ((← get).world.opened path).bind fun d => d.files.get? file with
  | none => throw .failed
  | some info => pure info

/-- `Registry.Check`. -/
def check (file : Text) (want : FileInfo) : Cutting Unit := do
  goes
  match (← get).world.registry.get? file with
  | none => throw .failed
  | some got => if got = want then pure () else throw (.conflict file)

/-- The registry keeps the first bytes under a name. -/
def Registry.keepFirst (r : Registry) (file : Text) (info : FileInfo) : Registry :=
  match r.get? file with
  | none => r.put file info
  | some _ => r

def store (arrives : Bool) (file : Text) (info : FileInfo) : Cutting Unit :=
  if arrives then setWorld fun w => { w with registry := w.registry.keepFirst file info } else pure ()

/-- The attempts of `Registry.Upload`. -/
def put (file : Text) (info : FileInfo) : Nat → Cutting Unit
  | 0 => throw .failed
  | n + 1 => do
    match ← ask with
    | .put arrives code => do
      store arrives file info
      match code with
      | none => put file info n
      | some code =>
        if code = 200 ∨ code = 201 ∨ code = 204 then pure ()
        else if code = 409 ∨ code = 400 then check file info
        else if code ≥ 500 then put file info n
        else throw .failed
    | _ => throw .failed

/-- `Registry.Upload`. -/
def upload (cfg : Config) (path file : Text) : Cutting Unit := do
  let info ← hashFile path file
  put file info (cfg.retries + 1)

def stepUpload (t : Tools) (cfg : Config) : Cutting Unit := do
  let dir ← outDir t cfg
  let files ← uploadList
  files.forM fun file => upload cfg dir file

def verifyFile (path file : Text) : Cutting Unit := do
  let want ← hashFile path file
  check file want

def stepVerify (t : Tools) (cfg : Config) : Cutting Unit := do
  let dir ← outDir t cfg
  let files ← uploadList
  files.forM fun file => verifyFile dir file

/-- A commit changes the branch when one of its feeds is not there yet. -/
def changes (b : Branch) (outs : List (Text × Feed)) : Bool := outs.any fun out => b.get? out.1 ≠ some out.2

/-- The feeds stand on the branch. -/
def World.note (w : World) (pushed : Bool) (parts : List PartSpec) (outs : List (Text × Feed)) : World :=
  { w with log := (outs.map fun out => Entry.feed pushed out.1 parts out.2 w.registry) ++ w.log }

def World.push (w : World) (parts : List PartSpec) (outs : List (Text × Feed)) : World :=
  { w.note true parts outs with branch := applyFeeds w.branch outs }

/-- `CommitFeeds`: planned again at every attempt. -/
def commitFeeds (t : Tools) (files : Files) : Nat → Cutting Unit
  | 0 => throw .failed
  | n + 1 => do
    goes
    let c ← get
    match planFeeds c.release files t.urlFor c.world.branch.get? with
    | .error err => throw (.feed err)
    | .ok outs =>
      if changes c.world.branch outs then do
        match ← ask with
        | .pushed => setWorld fun w => w.push c.release.parts outs
        | .pushLost => do
          setWorld fun w => w.push c.release.parts outs
          commitFeeds t files n
        | .rejected => commitFeeds t files n
        | _ => throw .failed
      else setWorld fun w => w.note false c.release.parts outs

def pushAttempts : Nat := 5

/-- The first feed step says when the release is published. -/
def fixPublished (cfg : Config) : Cutting Unit := do
  let c ← get
  if c.st.published = [] then do
    setState fun st => { st with published := cfg.now }
    save
  else pure ()

def stepFeed (t : Tools) (cfg : Config) : Cutting Unit := do
  let dir ← outDir t cfg
  resolve cfg
  let (_, files) ← sums dir
  fixPublished cfg
  modify fun c => { c with release := { c.release with published := c.st.published } }
  commitFeeds t files pushAttempts

def stepMirror : Cutting Unit := goes

def World.pushTag (w : World) (channel sha : Text) : World :=
  { w with tag := some sha, log := .tag channel w.branch w.registry :: w.log }

/-- The tag in the checkout, which is made if it is not there. -/
def tagHere (sha : Text) : Cutting Unit := do
  match (← get).world.localTag with
  | some cur => if cur = sha then pure () else throw .tagElsewhere
  | none => do
    goes
    setWorld fun w => { w with localTag := some sha }

/-- `PushTag`. -/
def stepTag : Cutting Unit := do
  source
  tagHere (← get).st.sha
  goes
  let c ← get
  match c.world.tag with
  | some sha => if sha = c.st.sha then pure () else throw .tagElsewhere
  | none =>
    match ← ask with
    | .pushed => setWorld fun w => w.pushTag c.st.channel c.st.sha
    | .pushLost => do
      setWorld fun w => w.pushTag c.st.channel c.st.sha
      throw .failed
    | _ => throw .failed

def runStep (t : Tools) (cfg : Config) : Step → Cutting Unit
  | .bump => stepBump
  | .build => stepBuild cfg
  | .sign => stepSign t cfg
  | .upload => stepUpload t cfg
  | .verify => stepVerify t cfg
  | .feed => stepFeed t cfg
  | .mirror => stepMirror
  | .tag => stepTag

/-! ### Runs -/

/-- One turn of the loop over the steps. -/
def perform (t : Tools) (cfg : Config) (s : Step) : Cutting Unit := do
  let c ← get
  if s ∈ c.st.done then pure ()
  else do
    runStep t cfg s
    setState fun st => { st with done := s :: st.done }
    save

def newState (channel : Text) : State := ⟨channel, [], [], [], [], []⟩

/-- `findDone`: the last by name. -/
def World.lastFinished (w : World) : Option (Text × State) :=
  (w.finished.rows.mergeSort fun a b => decide (a.1 ≤ b.1)).getLast?

/-- A cut that is begun, after the preflight. -/
def begin (cfg : Config) : Cutting Unit := do
  goes
  let c ← get
  if c.world.localTag.isSome ∨ c.world.tag.isSome then
    if cfg.resume then modify fun c => { c with tagSeen := true, st := newState cfg.channel }
    else throw .tagExists
  else setState fun _ => newState cfg.channel

def load (path : Text) (st : State) : Cutting Unit := do
  goes
  modify fun c => { c with st := st, statePath := some path }

/-- `os.Rename` of a finished state file, to take the cut up again. -/
def World.reopen (w : World) (path : Text) (st : State) : World :=
  { w with saved := w.saved.put path st, finished := w.finished.erase path }

/-- How a run comes by its state; `false` where the cut was finished already. -/
def takeUp (cfg : Config) : Cutting Bool := do
  goes
  let c ← get
  match c.world.saved.rows with
  | [(path, st)] =>
    if cfg.resume then do
      load path st
      pure true
    else throw .cutExists
  | _ :: _ :: _ => throw .severalCuts
  | [] =>
    if cfg.resume then
      match c.world.lastFinished with
      | some (path, st) => do
        load path st
        goes
        if c.world.tag.isSome then pure false
        else do
          goes
          setWorld fun w => w.reopen path st
          setState fun st => { st with done := st.done.filter fun s => s ≠ .tag }
          pure true
      | none => do
        begin cfg
        pure true
    else do
      begin cfg
      pure true

/-- The state's channel is the release's, and its texts stay. -/
def settle : Cutting Unit := do
  let c ← get
  if c.st.channel ≠ c.release.channel then throw (.otherChannel c.st.channel)
  else
    modify fun c =>
      let published := if c.st.published ≠ [] then c.st.published else c.release.published
      let notes := if c.release.notes = [] then c.st.notes else c.release.notes
      { c with
        release := { c.release with published := published, notes := notes }
        st := { c.st with notes := notes } }

/-- The state file no longer counts as an unfinished cut; a failure is only logged. -/
def markFinished : Cutting Unit := do
  let c ← get
  match c.statePath with
  | none => pure ()
  | some path =>
    match ← ask with
    | .refused => pure ()
    | _ =>
      match c.world.saved.get? path with
      | none => pure ()
      | some st =>
        setWorld fun w => { w with saved := w.saved.erase path, finished := w.finished.put path st }

/-- `Run`. -/
def cutRelease (t : Tools) (cfg : Config) : Cutting Unit := do
  if validSemver t.version = false then throw (.version t.version)
  else do
    let goesOn ← takeUp cfg
    if goesOn then do
      settle
      steps.forM fun s => perform t cfg s
      markFinished
    else pure ()

def CutRun.start (t : Tools) (cfg : Config) (w : World) (replies : List Reply) : CutRun :=
  ⟨w, replies, cfg.release t, newState cfg.channel, none, false⟩

/-- What a run leaves, wherever it stops. -/
def runCut (t : Tools) (cfg : Config) (replies : List Reply) (w : World) : World :=
  match cutRelease t cfg (CutRun.start t cfg w replies) with
  | .ok _ c => c.world
  | .error _ c => c.world

end LibreServ.Publish
