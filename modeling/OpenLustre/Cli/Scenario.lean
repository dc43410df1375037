import OpenLustre.Lib.Keyed
import OpenLustre.Lib.Text
import OpenLustre.Sim.Covering
import OpenLustre.Sim.Registration

/-! Test scenarios: input vectors run on the simulator and on the compiled C, and compared
with their recorded traces. -/

namespace OpenLustre.Simulator

open OpenLustre.Ir Stateful

namespace MonitoredSim

variable (m : Machine) (p : Project)

/-- What the monitor makes of a cycle that ended in `env`, with the simulation it leaves. -/
def observed (ms : MonitoredSim) (inputs env : Env) : Except Fault Observed × MonitoredSim :=
  match signalsOf m p ms.sim.node env with
  | .error e => (.error e, ms)
  | .ok (signals, outputs) =>
    match ms.monitor with
    | none => (.ok ⟨signals ++ outputs, [], [], false⟩, ms)
    | some (c, obs) =>
      match observe m p c obs ms.sim.consts inputs (bindings outputs) ms.observerCalls with
      | (.error e, calls) => (.error e, { ms with observerCalls := calls })
      | (.ok (activeModes, violations), calls) =>
        (.ok ⟨signals ++ outputs, activeModes, violations, true⟩, { ms with observerCalls := calls })

/-- One observed cycle with coverage on; the observer is stepped without. -/
def stepObservedCov (inputs : Env) : Stateful Fault (MonitoredSim × Coverage) Observed :=
  fun (ms, c) =>
    match Sim.stepEnvCov m p inputs (ms.sim, c) with
    | (.error e, sim, c) => (.error e, { ms with sim := sim }, c)
    | (.ok env, sim, c) =>
      let (r, ms) := observed m p { ms with sim := sim } inputs env
      (r, ms, c)

theorem stepObserved_eq (inputs : Env) (ms : MonitoredSim) :
    stepObserved m p inputs ms =
      match Sim.stepEnv m p inputs ms.sim with
      | (.error e, sim) => (.error e, { ms with sim := sim })
      | (.ok env, sim) => observed m p { ms with sim := sim } inputs env := by
  unfold stepObserved observed
  rfl

theorem stepObservedCov_covers (inputs : Env) : Covers (stepObservedCov m p inputs) := by
  rintro ⟨ms, c⟩
  have hstep := Sim.stepEnvCov_covers (m := m) (p := p) inputs (ms.sim, c)
  unfold stepObservedCov
  rcases hs : Sim.stepEnvCov m p inputs (ms.sim, c) with ⟨_ | env, sim, c'⟩
  · simpa only [hs] using hstep
  · simpa only [hs] using hstep

end MonitoredSim

end OpenLustre.Simulator

namespace OpenLustre.Cli

open OpenLustre.Ir OpenLustre.Simulator Keyed

/-- What stops a run short of a trace. -/
inductive RunError
  | fault (e : EvalError)
  | header (expected got : List String)
  | input (message : String)

/-- The parts of the simulator's text interface, and the C compiler: none when there is no
compiler, else what compiling the model gives, which runs on the text of a scenario. -/
structure Backends where
  machine : Machine
  parseInput : Project → Port → String → Except String Value
  cell : Value → String
  errorText : RunError → String
  compileModel : Project → String → Option (Except String (String → Except String String))

/-- The readable text of each file of a directory, none where it cannot be read. -/
abbrev Directory := List (String × Option String)

structure ScenarioInfo where
  name : String
  inputPath : String
  goldenPath : String
  hasGolden : Bool
  deriving DecidableEq, Repr

inductive Backend
  | ir
  | c
  deriving DecidableEq, Repr

inductive RunStatus
  | pass
  | fail
  | noGolden
  | skipped
  | error
  deriving DecidableEq, Repr

structure CellDiff where
  cycle : String
  column : String
  expected : String
  actual : String
  deriving DecidableEq, Repr

structure ScenarioResult where
  name : String
  backend : Backend
  status : RunStatus
  diffs : List CellDiff
  message : String
  deriving DecidableEq, Repr

def maxDiffs : Nat := 20

def scenarioOf (dir : Directory) (file : String) : ScenarioInfo :=
  let name := Text.trimEndMatches ".csv" file
  let goldenPath := name ++ ".golden.csv"
  ⟨name, file, goldenPath, dir.any fun entry => decide (entry.1 = goldenPath)⟩

/-- The input vectors of a directory, by name. -/
def listScenarios (dir : Directory) : List ScenarioInfo :=
  let inputs := dir.filter fun entry =>
    Text.isSuffix ".csv" entry.1 && !Text.isSuffix ".golden.csv" entry.1
  (inputs.map fun entry => scenarioOf dir entry.1).mergeSort fun a b => decide (a.name ≤ b.name)

def Directory.read (dir : Directory) (path : String) : Option String := (dir.lookup path).bind id

section

variable (b : Backends) (p : Project)

/-- The inputs in the cells of a row. -/
def readInputs (cells : List String) : List (Port × Nat) → Except String Env
  | [] => .ok fun _ => none
  | (port, i) :: ports => do
    let v ← b.parseInput p port (Text.trim (cells[i]?.getD ""))
    let rest ← readInputs cells ports
    .ok (Env.set rest port.name v)

/-- The headers of a full trace. -/
def fullHeaders (ms : MonitoredSim) : List String :=
  "cycle" :: (ms.sim.node.inputs ++ ms.sim.node.locals ++ ms.sim.node.outputs).map (·.name) ++
    if ms.monitor.isSome then ["active_mode", "violations"] else []

/-- The row of a full trace for one cycle. -/
def fullRow (cycle : Nat) (obs : Observed) : List String :=
  toString cycle :: obs.values.map (fun x => b.cell x.2) ++
    if obs.monitored then
      [labelList obs.activeModes, labelList obs.violations]
    else []

/-- Run the rows of an input vector with coverage on; a row without a value is no cycle,
but counts in the numbering. -/
def runRows : List (String × Nat) → MonitoredSim × Coverage →
    Except Panic (Except RunError (List (List String)) × Coverage)
  | [], (_, c) => .ok (.ok [], c)
  | (row, cycle) :: rows, (ms, c) =>
    let cells := Text.fields row
    if cells.all fun cell => (Text.trim cell).isEmpty then runRows rows (ms, c)
    else
      match readInputs b p cells ms.sim.node.inputs.zipIdx with
      | .error message => .ok (.error (.input message), c)
      | .ok inputs =>
        match MonitoredSim.stepObservedCov b.machine p inputs (ms, c) with
        | (.error (.panic e), _) => .error e
        | (.error (.error e), _, c) => .ok (.error (.fault e), c)
        | (.ok obs, s) => do
          let (rows, c) ← runRows rows s
          .ok (rows.map (fullRow b cycle obs :: ·), c)

/-- The text of a trace. -/
def traceCsv (headers : List String) (rows : List (List String)) : String :=
  String.join ((headers :: rows).map fun row => String.intercalate "," row ++ "\n")

/-- Run the simulator on one input vector, with coverage: its full trace and what it covered. -/
def irFullTrace (node inputCsv : String) : Except Panic (Except RunError (String × Coverage)) :=
  match MonitoredSim.new b.machine p node with
  | .error (.panic e) => .error e
  | .error (.error e) => .ok (.error (.fault e))
  | .ok ms =>
    let lines := Text.lines inputCsv
    let headers := (Text.fields (lines.head?.getD "")).map Text.trim
    let expected := ms.sim.node.inputs.map (·.name)
    if headers ≠ expected then .ok (.error (.header expected headers))
    else do
      let (rows, c) ← runRows b p lines.tail.zipIdx (ms, enableCoverage p ms.sim.node)
      .ok (rows.map fun rows => (traceCsv (fullHeaders ms) rows, c))

end

structure Csv where
  header : List String
  rows : List (List String)

def parseCsv (text : String) : Csv :=
  let cells := fun line => (Text.fields line).map Text.trim
  match Text.lines (Text.trim text) with
  | [] => ⟨cells "", []⟩
  | header :: rows => ⟨cells header, (rows.filter fun row => !(Text.trim row).isEmpty).map cells⟩

/-- The columns of the actual trace that the golden one has, by index in both. -/
def columnPairs (g a : Csv) : List (Nat × Nat × String) :=
  a.header.zipIdx.filterMap fun (col, i) =>
    if g.header.contains col then some (i, g.header.idxOf col, col) else none

def cellDiff (g a : List String) (r : Nat) : Nat × Nat × String → Option CellDiff
  | (i, j, col) =>
    let expected := g[j]?.getD ""
    let actual := a[i]?.getD ""
    if expected = actual then none
    else some ⟨g.head?.getD (toString r), col, expected, actual⟩

/-- Compare a trace with the golden one, cell by cell; of the simulator's trace all columns
of the golden one are asked for. -/
def compareCsv (golden actual name : String) (backend : Backend) (projectColumns : Bool) :
    ScenarioResult :=
  let g := parseCsv golden
  let a := parseCsv actual
  let all := ((g.rows.zip a.rows).zipIdx.flatMap fun ((g', a'), r) =>
    (columnPairs g a).filterMap (cellDiff g' a' r))
  let messages :=
    (a.header.filter fun col => !g.header.contains col).map
        (fun col => "column `" ++ col ++ "` missing from golden trace") ++
      (if projectColumns then []
        else (g.header.filter fun col => !a.header.contains col).map fun col =>
          "column `" ++ col ++ "` missing from actual trace") ++
      (if g.rows.length ≠ a.rows.length then
        ["row count differs: golden has " ++ toString g.rows.length ++ " cycles, actual has " ++
          toString a.rows.length]
        else []) ++
      if all.length ≥ maxDiffs then
        ["more than " ++ toString maxDiffs ++ " differing cells; truncated"]
      else []
  let diffs := all.take maxDiffs
  let message := messages.getLast?.getD ""
  ⟨name, backend, if diffs.isEmpty && message.isEmpty then .pass else .fail, diffs, message⟩

section

variable (b : Backends) (p : Project) (node : String)
  (exe : Option (Except String (String → Except String String)))

/-- One scenario with a golden trace, on one backend. -/
def runBackend (name input golden : String) :
    Backend → Except Panic (ScenarioResult × Option Coverage)
  | .ir => do
    match ← irFullTrace b p node input with
    | .ok (actual, c) => .ok (compareCsv golden actual name .ir false, some c)
    | .error e => .ok (⟨name, .ir, .error, [], b.errorText e⟩, none)
  | .c =>
    .ok <| match exe with
    | none => (⟨name, .c, .skipped, [], "cc not available on this machine"⟩, none)
    | some (.error e) => (⟨name, .c, .error, [], "C build failed: " ++ e⟩, none)
    | some (.ok run) =>
      match run input with
      | .ok actual => (compareCsv golden actual name .c true, none)
      | .error e => (⟨name, .c, .error, [], e⟩, none)

def runScenario (dir : Directory) (backends : List Backend) (s : ScenarioInfo) :
    Except Panic (List (ScenarioResult × Option Coverage)) :=
  match dir.read s.inputPath with
  | none => .ok (backends.map fun backend =>
      (⟨s.name, backend, .error, [], "could not read input"⟩, none))
  | some input =>
    match if s.hasGolden then dir.read s.goldenPath else none with
    | none => .ok (backends.map fun backend => (⟨s.name, backend, .noGolden, [],
        "no golden trace; run `openlustre test record` to capture " ++ s.goldenPath⟩, none))
    | some golden => backends.mapM (runBackend b p node exe s.name input golden)

end

/-- What names a decision across scenarios: its node, equation and text. -/
abbrev DecisionName := String × String × String

def DecisionName.le (a b : DecisionName) : Prop :=
  a.1 < b.1 ∨ a.1 = b.1 ∧ (a.2.1 < b.2.1 ∨ a.2.1 = b.2.1 ∧ a.2.2 ≤ b.2.2)

instance : DecidableRel DecisionName.le := fun _ _ => inferInstanceAs (Decidable (_ ∨ _))

abbrev CoverageAcc := List (DecisionName × Bool × Bool)

structure McdcDecisionAgg where
  conditions : List String
  trials : List McdcTrial
  deriving Repr

abbrev McdcAcc := List (DecisionName × McdcDecisionAgg)

def siteName (s : DecisionSite) : DecisionName := (s.node, s.context, s.condition)

def decisionName (d : DecisionData) : DecisionName := (d.node, d.context, d.decisionText)

def addSite (acc : CoverageAcc) (s : DecisionSite) : CoverageAcc :=
  update DecisionName.le (siteName s) (fun seen =>
    let (t, f) := seen.getD (false, false)
    (t || s.seenTrue, f || s.seenFalse)) acc

/-- Merge the trials of a decision into those of its name. -/
def addDecision (acc : McdcAcc) (d : DecisionData) : McdcAcc :=
  update DecisionName.le (decisionName d) (fun agg =>
    let agg := agg.getD ⟨d.conditions.map (·.2), []⟩
    { agg with trials := d.trials.foldl (fun trials t => trials.insert t) agg.trials }) acc

structure UncoveredDecision where
  name : DecisionName
  missing : String
  deriving DecidableEq, Repr

structure CoverageSummary where
  total : Nat
  covered : Nat
  uncovered : List UncoveredDecision
  deriving DecidableEq, Repr

def summarizeCoverage (acc : CoverageAcc) : CoverageSummary where
  total := acc.length
  covered := (acc.filter fun e => e.2.1 && e.2.2).length
  uncovered := (acc.filter fun e => !(e.2.1 && e.2.2)).map fun e =>
    ⟨e.1, match e.2 with
      | (false, false) => "both"
      | (false, true) => "true"
      | _ => "false"⟩

/-- Two trials that differ in one condition only, and in the outcome. -/
def independent (n i : Nat) (a b : McdcTrial) : Bool :=
  decide (a.values.length = n) && decide (b.values.length = n) && decide (a.outcome ≠ b.outcome) &&
    decide (a.values[i]? ≠ b.values[i]?) &&
    ((List.range n).filter (· ≠ i)).all fun j => decide (a.values[j]? = b.values[j]?)

/-- For each condition the first pair of trials that shows it to matter on its own. -/
def mcdcIndependence (n : Nat) (trials : List McdcTrial) : List (Option (Nat × Nat)) :=
  (List.range n).map fun i =>
    (trials.zipIdx.flatMap fun (a, k) =>
      (trials.zipIdx.filter fun x => k < x.2).map fun (b, l) => (a, k, b, l)).findSome? fun (a, k, b, l) =>
        if independent n i a b then some (k, l) else none

structure McdcUncovered where
  name : DecisionName
  condition : String
  reason : String
  deriving DecidableEq, Repr

structure McdcSummary where
  totalDecisions : Nat
  coveredDecisions : Nat
  totalConditions : Nat
  coveredConditions : Nat
  uncovered : List McdcUncovered
  deriving DecidableEq, Repr

/-- Whether each condition of a decision was shown to matter on its own. -/
def McdcDecisionAgg.shown (agg : McdcDecisionAgg) : List (String × Bool) :=
  agg.conditions.zip ((mcdcIndependence agg.conditions.length agg.trials).map (·.isSome))

def summarizeMcdc (acc : McdcAcc) : McdcSummary :=
  let decisions := acc.filter fun e => !e.2.conditions.isEmpty
  let conditions := decisions.flatMap fun e => e.2.shown.map fun x => (e.1, x)
  { totalDecisions := decisions.length
    coveredDecisions := (decisions.filter fun e => e.2.shown.all (·.2)).length
    totalConditions := conditions.length
    coveredConditions := (conditions.filter (·.2.2)).length
    uncovered := (conditions.filter fun x => !x.2.2).map fun x =>
      ⟨x.1, x.2.1, "no test pair flips only this condition and the outcome"⟩ }

structure RunOutcome where
  results : List ScenarioResult
  coverage : Option CoverageSummary
  mcdc : Option McdcSummary
  deriving Repr

/-- What a suite of runs covered. -/
def coverageAcc (runs : List Coverage) : CoverageAcc := (runs.flatMap (·.sites)).foldl addSite []

def mcdcAcc (runs : List Coverage) : McdcAcc := (runs.flatMap (·.decisions)).foldl addDecision []

/-- Run every scenario on the backends asked for. -/
def runScenarios (b : Backends) (p : Project) (dir : Directory) (node : String)
    (backends : List Backend) : Except Panic RunOutcome := do
  let exe := if backends.contains .c then b.compileModel p node else none
  let outcomes ← (listScenarios dir).mapM (runScenario b p node exe dir backends)
  let runs := outcomes.flatten.filterMap (·.2)
  let wantCoverage := backends.contains .ir
  .ok {
    results := outcomes.flatten.map (·.1)
    coverage :=
      if wantCoverage && !(coverageAcc runs).isEmpty then some (summarizeCoverage (coverageAcc runs))
      else none
    mcdc :=
      if wantCoverage && !(mcdcAcc runs).isEmpty then some (summarizeMcdc (mcdcAcc runs)) else none }

end OpenLustre.Cli
