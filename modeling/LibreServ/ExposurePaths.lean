import LibreServ.Table

/-! The path over which an app is exposed: the plan asks which paths have failed too often, and the records of the checks
count the failures. -/

namespace LibreServ.Exposure

open List Table

inductive Path
  | directV4
  | directV6
  | upnp
  | guide
  | tunnel
  | relay
  | lanOnly
  deriving DecidableEq

/-- A row of `path_state` is one cell's. -/
structure Cell where
  appID : String
  path : Path
  protocol : String
  port : Int
  deriving DecidableEq

structure PathState where
  failures : ℕ
  successes : ℕ
  deriving DecidableEq

structure PortNeed where
  protocol : String
  port : Int
  verifyHint : String
  deriving DecidableEq

structure Requirement where
  web : Bool
  ports : List PortNeed
  largeUploads : Bool

/-- What is read of the report: `v4Open` is `Stacks.V4.InboundOpen`. -/
structure NetworkReport where
  v4Open : Bool
  v6Open : Bool
  behindDoubleNAT : Bool
  discovered : Bool
  enabled : Bool
  active : Bool
  tunnelOK : Bool
  hasDedicatedIP : Bool

structure Plan where
  path : Path
  steps : List String
  coverageV4 : Bool
  coverageV6 : Bool
  message : String
  addonNeeded : Bool
  ports : List PortNeed
  deriving DecidableEq

def downgradeAfterFailures : ℕ := 3

def upgradeAfterSuccesses : ℕ := 2

/-! ### The records -/

def recordFailure (db : Table Cell PathState) (cell : Cell) : Table Cell PathState :=
  match db.get? cell with
  | none => db.put cell ⟨1, 0⟩
  | some st => db.put cell ⟨st.failures + 1, 0⟩

def recordSuccess (db : Table Cell PathState) (cell : Cell) : Table Cell PathState :=
  match db.get? cell with
  | none => db.put cell ⟨0, 1⟩
  | some st => db.put cell ⟨0, st.successes + 1⟩

/-- One row of the app is taken in. -/
def foldRow (out : Table Path PathState) (row : Cell × PathState) : Table Path PathState :=
  match out.get? row.1.path with
  | none => out.put row.1.path row.2
  | some cur => out.put row.1.path ⟨max cur.failures row.2.failures, max cur.successes row.2.successes⟩

def stateForApp (db : Table Cell PathState) (appID : String) : Table Path PathState :=
  (db.select fun cell _ => cell.appID = appID).foldl foldRow Table.empty

/-! ### The plan -/

/-- A path without a state has not failed. -/
def downgraded (state : Table Path PathState) (path : Path) : Bool :=
  downgradeAfterFailures ≤ ((state.get? path).getD ⟨0, 0⟩).failures

def joinPorts (ports : List PortNeed) : String :=
  let keyed := (ports.map fun p => (p.protocol, p.port)).reverse.dedup.reverse
  ", ".intercalate (keyed.map fun p => (if p.1 = "" then "tcp" else p.1) ++ " " ++ toString p.2)

section

variable (req : Requirement) (report : NetworkReport) (state : Table Path PathState)

def planCGNAT (ports : List PortNeed) : Plan :=
  if report.hasDedicatedIP && !downgraded state .relay then
    ⟨.relay, [], true, true, "Your apps are reachable from the internet through your dedicated address.", false, ports⟩
  else ⟨.lanOnly, [], false, false, "Only people on your home network can use these apps right now.", true, ports⟩

def planWeb : Plan :=
  let tunnelUsable := !req.largeUploads && report.active && report.tunnelOK
  let v4OK := report.v4Open && !downgraded state .directV4
  let v6OK := report.v6Open && !downgraded state .directV6
  if v4OK || v6OK then
    ⟨if !v4OK && v6OK then .directV6 else .directV4, [], v4OK, v6OK,
      "Your app is reachable directly from the internet.", false, []⟩
  else if tunnelUsable then
    ⟨.tunnel, [], true, true, "Your app is reachable from the internet through a protected connection.", false, []⟩
  else if req.largeUploads then planCGNAT report state []
  else ⟨.lanOnly, [], false, false, "Only people on your home network can use this app right now.", false, []⟩

def planPorts : Plan :=
  if report.v6Open && !downgraded state .directV6 then
    ⟨.directV6, [], report.v4Open, true, "Your apps are reachable over the internet directly.", false, req.ports⟩
  else if report.v4Open && !downgraded state .directV4 then
    ⟨.directV4, [], true, report.v6Open, "Your apps are reachable over the internet directly.", false, req.ports⟩
  else if report.behindDoubleNAT then planCGNAT report state req.ports
  else if report.discovered && report.enabled && !downgraded state .upnp then
    ⟨.upnp, ["Open ports " ++ joinPorts req.ports ++ " on your router using UPnP"], true, report.v6Open,
      "We opened the ports your apps need on your router.", false, req.ports⟩
  else if report.discovered && !report.enabled then
    ⟨.guide, ["Enable UPnP on your router (we'll show you where)"], false, false,
      "Your router has the setting that lets apps be reached from the internet — it just needs to be turned on.", false,
      req.ports⟩
  else planCGNAT report state req.ports

def plan : Plan := if req.web && req.ports.isEmpty then planWeb req report state else planPorts req report state

end

/-! ### What should be so -/

/-- The checks of the cells, `true` where one succeeded. -/
abbrev History := List (Cell × Bool)

def record (db : Table Cell PathState) (check : Cell × Bool) : Table Cell PathState :=
  if check.2 then recordSuccess db check.1 else recordFailure db check.1

/-- What `StateForApp` returns after these checks. -/
def History.state (h : History) (appID : String) : Table Path PathState :=
  stateForApp (h.foldl record Table.empty) appID

def History.events (h : History) (cell : Cell) : List Bool := (h.filter (·.1 = cell)).map Prod.snd

/-- Failures enough for a downgrade, and since then not successes enough for an upgrade. -/
def Degraded (events : List Bool) : Prop :=
  ∃ before since, events = before ++ List.replicate downgradeAfterFailures false ++ since ∧
    ¬ List.replicate upgradeAfterSuccesses true <:+: since

/-- The last checks have failed. -/
def Failing (events : List Bool) : Prop := List.replicate downgradeAfterFailures false <:+ events

/-- Some cell of the app's path has events of a kind. -/
def History.Some (h : History) (kind : List Bool → Prop) (appID : String) (path : Path) : Prop :=
  ∃ cell, cell.appID = appID ∧ cell.path = path ∧ kind (h.events cell)

def exposed : List Path := [.directV4, .directV6, .upnp, .relay]

structure History.Obeyed (h : History) (appID : String) : Prop where
  path : ∀ req report, (plan req report (h.state appID)).path ∈ exposed →
    ¬ h.Some Degraded appID (plan req report (h.state appID)).path
  coverage : ∀ req report, (plan req report (h.state appID)).path ∈ [Path.directV4, .directV6] →
    ((plan req report (h.state appID)).coverageV4 = true →
      report.v4Open = true ∧ downgraded (h.state appID) .directV4 = false) ∧
    ((plan req report (h.state appID)).coverageV6 = true →
      report.v6Open = true ∧ downgraded (h.state appID) .directV6 = false)

/-! ### The counts -/

theorem replicate_suffix_snoc {events : List Bool} {ok : Bool} {n : ℕ} :
    List.replicate n false <:+ events ++ [ok] ↔ n = 0 ∨ ok = false ∧ List.replicate (n - 1) false <:+ events := by
  rw [suffix_concat_iff]
  cases n with
  | zero => simp
  | succ n =>
    rw [replicate_succ']
    constructor
    · rintro (h | ⟨t, ht, hs⟩)
      · simp at h
      · obtain ⟨rfl, hok⟩ := append_inj' ht rfl
        exact .inr ⟨(cons.inj hok).1.symm, hs⟩
    · rintro (h | ⟨rfl, hs⟩)
      · omega
      · exact .inr ⟨_, rfl, hs⟩

/-- A cell has as many failures as stand at the end of its events. -/
theorem le_failures {h : History} {cell : Cell} {n : ℕ} :
    n ≤ (((h.foldl record Table.empty).get? cell).getD ⟨0, 0⟩).failures ↔ List.replicate n false <:+ h.events cell := by
  induction h using List.reverseRecOn generalizing n with
  | nil => cases n <;> simp [History.events]
  | append_singleton h check ih =>
    obtain ⟨d, ok⟩ := check
    rw [foldl_append, foldl_cons, foldl_nil, record, History.events, filter_append, map_append]
    by_cases hd : d = cell
    · subst hd
      have ih := @ih (n - 1)
      rw [History.events] at ih
      rw [filter_cons_of_pos (by simp), filter_nil, map_singleton, replicate_suffix_snoc, ← ih]
      cases ok
      · cases hrow : (h.foldl record Table.empty).get? d <;> simp [recordFailure, hrow] <;> omega
      · cases hrow : (h.foldl record Table.empty).get? d <;> simp [recordSuccess, hrow]
    · rw [filter_cons_of_neg (by simpa using hd), filter_nil, map_nil, append_nil]
      have hkept : (if ok then recordSuccess (h.foldl record Table.empty) d
          else recordFailure (h.foldl record Table.empty) d).get? cell = (h.foldl record Table.empty).get? cell := by
        unfold recordSuccess recordFailure
        split <;> split <;> exact get?_put_of_ne _ _ (Ne.symm hd)
      rw [hkept]
      exact ih

/-- The worst cell counts. -/
theorem le_worst {n : ℕ} {path : Path} {rows : List (Cell × PathState)} {out : Table Path PathState} :
    n ≤ (((rows.foldl foldRow out).get? path).getD ⟨0, 0⟩).failures ↔
      n ≤ ((out.get? path).getD ⟨0, 0⟩).failures ∨ ∃ row ∈ rows, row.1.path = path ∧ n ≤ row.2.failures := by
  induction rows generalizing out with
  | nil => simp
  | cons row rows ih =>
    rw [foldl_cons, ih]
    simp only [exists_mem_cons_iff, ← or_assoc]
    refine or_congr_left ?_
    rw [foldRow]
    by_cases hp : row.1.path = path
    · subst hp
      cases hout : out.get? row.1.path with
      | none =>
        simp only [get?_put_self, Option.getD_some, Option.getD_none, true_and]
        omega
      | some cur =>
        simp only [get?_put_self, Option.getD_some, true_and]
        omega
    · have hne : path ≠ row.1.path := Ne.symm hp
      split <;> simp [get?_put_of_ne _ _ hne, hp]

theorem downgraded_iff {h : History} {app : String} {path : Path} :
    downgraded (h.state app) path = true ↔ h.Some Failing app path := by
  rw [downgraded, decide_eq_true_eq, History.state, stateForApp, le_worst]
  constructor
  · rintro (hnone | ⟨⟨cell, st⟩, hrow, rfl, hle⟩)
    · simp [downgradeAfterFailures] at hnone
    · obtain ⟨hget, happ⟩ := mem_select.mp hrow
      exact ⟨cell, of_decide_eq_true happ, rfl, le_failures.mp (by rw [hget]; exact hle)⟩
  · rintro ⟨cell, happ, hpath, hfail⟩
    have hle := le_failures.mpr hfail
    cases hget : (h.foldl record Table.empty).get? cell with
    | none =>
      rw [hget] at hle
      exact absurd hle (by decide)
    | some st =>
      rw [hget] at hle
      exact .inr ⟨(cell, st), mem_select.mpr ⟨hget, decide_eq_true happ⟩, hpath, hle⟩

/-! ### The plan keeps to the counts -/

/-- Only a path that is not downgraded is exposed, and a stack that carries nothing is taken from the report. -/
theorem plan_spares {req : Requirement} {report : NetworkReport} {state : Table Path PathState}
    (h : (plan req report state).path ∈ exposed) : downgraded state (plan req report state).path = false := by
  revert h
  unfold plan planWeb planPorts planCGNAT
  grind [exposed]

theorem plan_covers {req : Requirement} {report : NetworkReport} {state : Table Path PathState}
    (h : (plan req report state).path ∈ [Path.directV4, .directV6])
    (hsame : downgraded state .directV4 = downgraded state .directV6) :
    ((plan req report state).coverageV4 = true → report.v4Open = true ∧ downgraded state .directV4 = false) ∧
    ((plan req report state).coverageV6 = true → report.v6Open = true ∧ downgraded state .directV6 = false) := by
  revert h
  unfold plan planWeb planPorts planCGNAT
  grind

/-- Every exposed path is chosen for some app that may have it. -/
theorem exposed_chosen {state : Table Path PathState} {path : Path} (hp : path ∈ exposed)
    (hd : downgraded state path = false) : ∃ req report, (plan req report state).path = path := by
  simp only [exposed, mem_cons, not_mem_nil, or_false] at hp
  rcases hp with rfl | rfl | rfl | rfl
  · exact ⟨⟨true, [], false⟩, ⟨true, false, false, false, false, false, false, false⟩, by simp [plan, planWeb, hd]⟩
  · exact ⟨⟨true, [], false⟩, ⟨false, true, false, false, false, false, false, false⟩, by simp [plan, planWeb, hd]⟩
  · exact ⟨⟨false, [], false⟩, ⟨false, false, false, true, true, false, false, false⟩, by simp [plan, planPorts, hd]⟩
  · exact ⟨⟨false, [], false⟩, ⟨false, false, false, false, false, false, false, true⟩,
      by simp [plan, planPorts, planCGNAT, hd]⟩

/-- The checks are obeyed just where every path that should be down ends with failures, and the two stacks are down
together; failures too few for a downgrade change no plan. -/
theorem obeyed_iff (h : History) (app : String) :
    (h.Obeyed app ↔ (∀ path ∈ exposed, h.Some Degraded app path → h.Some Failing app path) ∧
      (h.Some Failing app .directV4 ↔ h.Some Failing app .directV6)) ∧
    ∀ h' : History, (∀ cell, cell.appID = app →
        h.events cell = h'.events cell ∨ ¬ Failing (h.events cell) ∧ ¬ Failing (h'.events cell)) →
      ∀ req report, plan req report (h.state app) = plan req report (h'.state app) := by
  refine ⟨⟨fun hobeyed => ⟨fun path hp hdeg => ?_, ?_⟩, fun ⟨hdown, hboth⟩ => ⟨fun req report hexp hdeg => ?_,
    fun req report hexp => plan_covers hexp ?_⟩⟩, fun h' hcells req report => ?_⟩
  · by_contra hfail
    obtain ⟨req, report, hplan⟩ := exposed_chosen hp (Bool.eq_false_iff.mpr (mt downgraded_iff.mp hfail))
    exact hobeyed.path req report (by rw [hplan]; exact hp) (by rw [hplan]; exact hdeg)
  · have hcov := hobeyed.coverage ⟨false, [], false⟩ ⟨true, true, false, false, false, false, false, false⟩
    rw [← downgraded_iff, ← downgraded_iff]
    cases h4 : downgraded (h.state app) .directV4 <;> cases h6 : downgraded (h.state app) .directV6 <;>
      simp [plan, planPorts, h4, h6] at hcov ⊢
  · have hno := plan_spares hexp
    rw [downgraded_iff.mpr (hdown _ hexp hdeg)] at hno
    cases hno
  · rw [Bool.eq_iff_iff, downgraded_iff, downgraded_iff]
    exact hboth
  · have hsame : ∀ path, downgraded (h.state app) path = downgraded (h'.state app) path := by
      intro path
      rw [Bool.eq_iff_iff, downgraded_iff, downgraded_iff]
      refine exists_congr fun cell => and_congr_right fun happ => and_congr_right fun _ => ?_
      rcases hcells cell happ with heq | ⟨hno, hno'⟩
      · rw [heq]
      · exact iff_of_false hno hno'
    simp only [plan, planWeb, planPorts, planCGNAT, hsame]

/-- Three failures and one success: the path is back before its upgrade. -/
theorem one_success_upgrades : ¬ ∀ (h : History) (app : String), h.Obeyed app := by
  intro hall
  have hobeyed := hall [(⟨"", .directV4, "", 0⟩, false), (⟨"", .directV4, "", 0⟩, false),
    (⟨"", .directV4, "", 0⟩, false), (⟨"", .directV4, "", 0⟩, true)] ""
  exact hobeyed.path ⟨true, [], false⟩ ⟨true, false, false, false, false, false, false, false⟩ (by decide +kernel)
    ⟨⟨"", .directV4, "", 0⟩, rfl, rfl, [], [true], rfl, by decide⟩

end LibreServ.Exposure
