import LibreServ.Runs
import LibreServ.Table

/-! Host ports of apps: the port manager's table, and the calls that concurrent installs make to it, one step each. Ports
are integers, as the configuration gives them. -/

namespace LibreServ.Ports

def wellKnownPortMax : Int := 1023

def maxPort : Int := 65535

def maxScanAttempts : Nat := 1000

/-- An entry of `usedPorts`; `owner` is none for `!pending`. `addedBy` is the install that added it. -/
structure Entry where
  owner : Option Nat
  addedBy : Nat
  deriving DecidableEq, Repr

/-- A configuration field of type `port`. -/
structure Field where
  name : String
  default : Int
  deriving DecidableEq, Repr

/-- An app of the catalog, with the host ports of its deployment. -/
structure AppDefinition where
  fields : List Field
  hosts : List Int
  deriving DecidableEq, Repr

/-- A row of `apps`. `error` says that it has the status and an error message. `fields` and `hosts` are the port fields
and the deployment's host ports of this install, and `failed` says that the install failed after it was saved. -/
structure Row where
  source : String
  config : Table String Int
  error : Bool
  fields : List Field
  hosts : List Int
  failed : Bool

/-- Where a call of `Install` is. -/
inductive Phase where
  | start
  | fields (rest : List Field)
  | reserveFields (rest : List Field)
  | hosts (done : List Int) (original : List (Int × Int)) (rest : List Int)
  | allocateHost (done : List Int) (original : List (Int × Int)) (host : Int) (rest : List Int)
  | release (hosts rest : List Int)
  | reserveHosts (hosts rest : List Int)
  | finish (hosts : List Int)
  | failing
  | ended
  deriving DecidableEq, Repr

/-- A call of `Install`; `given` are the fields that the user set. -/
structure Call where
  id : Nat
  appID : String
  app : AppDefinition
  given : List String
  config : Table String Int
  phase : Phase

/-- `bound` are the ports that the OS has bound. `failedCalls` are the calls that returned an error. -/
structure State where
  serverPort : Int
  catalog : String → Option AppDefinition
  used : Table Int Entry
  bound : List Int
  rows : Table Nat Row
  calls : List Call
  nextID : Nat
  failedCalls : List Nat

inductive Action where
  | install (appID : String) (given : List String) (config : Table String Int)
  | call (k : Nat) (done : Bool)
  | bind (ports : List Int)
  | failInstall (id : Nat) (marked : Bool)
  | releaseFailed (id : Nat)
  | restart (catalog : String → Option AppDefinition)

/-- `toInt` of a configuration value. -/
def value (config : Table String Int) (name : String) : Int := (config.get? name).getD 0

/-- The ports that these fields have. -/
def fieldPorts (config : Table String Int) (fields : List Field) : List Int :=
  (fields.map fun f => value config f.name).filter (0 < ·)

/-- The host ports of these deployment mappings. -/
def hostPorts (hosts : List Int) : List Int := hosts.filter (0 < ·)

/-- The host ports of an install. -/
def Row.ports (row : Row) : List Int := fieldPorts row.config row.fields ++ hostPorts row.hosts

/-- The next port of a scan. -/
def nextPort (port : Int) : Int := if maxPort < port + 1 then wellKnownPortMax + 1 else port + 1

def scan (ok : Int → Bool) (start : Int) : Nat → Int → Option Int
  | 0, _ => none
  | attempts + 1, port =>
    if ok port then some port
    else if nextPort port = start then none
    else scan ok start attempts (nextPort port)

/-- The field whose default a deployment's host port is gives the port. -/
def align (app : AppDefinition) (config : Table String Int) (host : Int) : Int :=
  match app.fields.find? fun f => f.default = host with
  | some f => if 0 < value config f.name then value config f.name else host
  | none => host

/-- The fields of a port that was allocated anew. -/
def updateFields (original : List (Int × Int)) (config : Table String Int) : List Field → Table String Int
  | [] => config
  | f :: rest =>
    match original.lookup (value config f.name) with
    | some allocated =>
      updateFields original (if value config f.name = 0 then config else config.put f.name allocated) rest
    | none => updateFields original config rest

/-- The ports that were given up and nothing of this install uses. -/
def unused (original : List (Int × Int)) (config : Table String Int) (fields : List Field) (hosts : List Int) : List Int :=
  (original.map Prod.fst).filter fun port => port ∉ hosts ∧ ∀ f ∈ fields, value config f.name ≠ port

/-- `extractPorts` of a row. -/
def extractPorts (catalog : String → Option AppDefinition) (row : Row) : List Int :=
  match catalog row.source with
  | none => (row.config.rows.map Prod.snd).filter fun port => wellKnownPortMax < port ∧ port ≤ maxPort
  | some app => fieldPorts row.config app.fields ++ hostPorts app.hosts

/-- The instance has all these ports. -/
def putAll (ports : List Int) (id : Nat) (used : Table Int Entry) : Table Int Entry :=
  ports.foldl (fun used port => used.put port ⟨some id, id⟩) used

/-- One row of `Init`'s scan. -/
def scanRow (catalog : String → Option AppDefinition) (used : Table Int Entry) (row : Nat × Row) : Table Int Entry :=
  if row.2.error then used else putAll (extractPorts catalog row.2) row.1 used

namespace State

variable (st : State)

/-! ### The port manager -/

def inRange (port : Int) : Bool := wellKnownPortMax < port && port ≤ maxPort && port ≠ st.serverPort

/-- `isAvailableLocked` and `isPortFreeAtOSLocked` together. -/
def isAvailable (port : Int) : Bool := st.inRange port && (st.used.get? port).isNone && port ∉ st.bound

def Reserve (port : Int) (id : Nat) : State := { st with used := st.used.put port ⟨some id, id⟩ }

/-- `Allocate` marks the port as pending. -/
def Allocate (preferred : Int) (id : Nat) : Option (State × Int) :=
  let found := if st.isAvailable preferred then some preferred
    else scan st.isAvailable (nextPort preferred) maxScanAttempts (nextPort preferred)
  found.map fun port => ({ st with used := st.used.put port ⟨none, id⟩ }, port)

def ReserveIfAvailable (port : Int) (id : Nat) : Option State := if st.isAvailable port then some (st.Reserve port id) else none

def ReserveIfAvailableForOwner (port : Int) (id : Nat) : Option State :=
  if st.inRange port && (st.used.get? port).all (fun e => e.owner = some id) && port ∉ st.bound then some (st.Reserve port id)
  else none

def ReleaseIfOwned (port : Int) (id : Nat) : State :=
  if (st.used.get? port).any fun e => e.owner = some id then { st with used := st.used.erase port } else st

def ReleaseAll (id : Nat) : State := { st with used := st.used.keep fun _ e => e.owner ≠ some id }

/-- The ports of every app that is not marked as failed, row by row. -/
def Init (catalog : String → Option AppDefinition) : Table Int Entry := st.rows.rows.foldl (scanRow catalog) .empty

/-! ### Install -/

def setCall (k : Nat) (c : Call) (phase : Phase) : State := { st with calls := st.calls.set k { c with phase := phase } }

/-- The next port field; a value that the user chose is only tried as it is. -/
def takeField (k : Nat) (c : Call) (f : Field) (rest : List Field) : State :=
  let current := value c.config f.name
  if f.name ∈ c.given ∧ ¬ (0 < f.default ∧ current = f.default) then
    if 0 < current then
      match st.ReserveIfAvailable current c.id with
      | some st => st.setCall k c (.fields rest)
      | none => st.setCall k c .failing
    else st.setCall k c (.fields rest)
  else
    let preferred := if current ≠ 0 then current else if f.default ≠ 0 then f.default else wellKnownPortMax + 1
    match st.Allocate preferred c.id with
    | some (st, port) => st.setCall k { c with config := c.config.put f.name port } (.fields rest)
    | none => st.setCall k c .failing

/-- The next step of call `k`; `done` says that what stands before the ports, or behind them, succeeds. -/
def stepCall (k : Nat) (done : Bool) (c : Call) : Option State :=
  match c.phase with
  | .start => some (st.setCall k c (if done then .fields c.app.fields else .failing))
  | .fields [] => some (st.setCall k c (.reserveFields c.app.fields))
  | .fields (f :: rest) => some (st.takeField k c f rest)
  | .reserveFields [] => some (st.setCall k c (.hosts [] [] c.app.hosts))
  | .reserveFields (f :: rest) =>
    let current := value c.config f.name
    some ((if 0 < current then st.Reserve current c.id else st).setCall k c (.reserveFields rest))
  | .hosts done original [] =>
    let config := updateFields original c.config c.app.fields
    some (st.setCall k { c with config := config } (.release done (unused original config c.app.fields done)))
  | .hosts done original (host :: rest) =>
    if host = 0 then some (st.setCall k c (.hosts (done ++ [0]) original rest))
    else
      let host := align c.app c.config host
      match st.ReserveIfAvailableForOwner host c.id with
      | some st => some (st.setCall k c (.hosts (done ++ [host]) original rest))
      | none => some (st.setCall k c (.allocateHost done original host rest))
  | .allocateHost done original host rest =>
    match st.Allocate host c.id with
    | some (st, port) => some (st.setCall k c (.hosts (done ++ [port]) ((host, port) :: original) rest))
    | none => some (st.setCall k c .failing)
  | .release hosts [] => some (st.setCall k c (.reserveHosts hosts hosts))
  | .release hosts (port :: rest) => some ((st.ReleaseIfOwned port c.id).setCall k c (.release hosts rest))
  | .reserveHosts hosts [] => some (st.setCall k c (.finish hosts))
  | .reserveHosts hosts (host :: rest) =>
    some ((if 0 < host then st.Reserve host c.id else st).setCall k c (.reserveHosts hosts rest))
  | .finish hosts =>
    if done then
      some { st.setCall k c .ended with rows := st.rows.put c.id ⟨c.appID, c.config, false, c.app.fields, hosts, false⟩ }
    else some (st.setCall k c .failing)
  | .failing => some { (st.ReleaseAll c.id).setCall k c .ended with failedCalls := c.id :: st.failedCalls }
  | .ended => none

def step (st : State) : Action → Option State
  | .install appID given config =>
    (st.catalog appID).map fun app =>
      { st with calls := st.calls ++ [⟨st.nextID, appID, app, given, config, .start⟩], nextID := st.nextID + 1 }
  | .call k done => st.calls[k]?.bind fun c => st.stepCall k done c
  | .bind ports => some { st with bound := ports }
  | .failInstall id marked =>
    match st.rows.get? id with
    | some row =>
      if row.failed then none
      else some { st with rows := st.rows.update fun id' row => if id' = id then { row with failed := true, error := marked } else row }
    | none => none
  | .releaseFailed id => if (st.rows.get? id).any Row.failed then some (st.ReleaseAll id) else none
  | .restart catalog => some { st with used := st.Init catalog, catalog := catalog, calls := [] }

end State

end LibreServ.Ports
