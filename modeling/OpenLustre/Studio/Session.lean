import Mathlib.Data.List.DropRight
import OpenLustre.Sim.Observe

/-! Interactive simulation sessions, with the generated C run in the loop as a child
process that is driven a line at a time. -/

namespace OpenLustre.Studio

open OpenLustre.Ir OpenLustre.Simulator

/-- What a session uses to read, write and generate values; `ρ` is the state of the
generator. -/
structure ValueIo (ρ : Type) where
  parse : String → Ty → Except String Value
  toCsv : Value → String
  parseReal : String → Option F64
  seed : Nat → ρ
  fuzzValue : Ty → ρ → Except String (Value × ρ)
  badText : Ty → ρ → String × ρ

/-- The compiled program: what it answers, if anything, after the lines it has read. -/
abbrev Process := List String → Option String

inductive SessionError
  | ended
  | breakpoint (e : Fault)
  | unexpectedInput (step : Option Nat) (name : String)
  | missingInput (step : Option Nat) (name : String)
  | badInput (step : Option Nat) (message : String)
  | fuzz (message : String)
  | historyFull
  | spawn
  | gone
  | columns (got : String) (want : List String)
  | unexpectedLine (got : String)
  | replaying (cycle : Nat) (e : SessionError)
  deriving Repr

/-- The cells of a line. -/
def lineCells (line : String) : List String := (line.toList.splitOn ',').map String.ofList

/-- How one C column is read back and compared with the simulator's cell. -/
inductive Cmp
  | text
  | float
  | enum (variants : List String)
  | array (elem : Cmp)
  deriving Repr

def enumVariants (p : Project) : Ty → Option (List String)
  | .named name =>
    match findType p name with
    | some (.enum e) => some e.variants
    | _ => none
  | _ => none

namespace Cmp

def of (p : Project) : Ty → Cmp
  | .float32 | .float64 => .float
  | .array elem _ => .array (of p elem)
  | ty => ((enumVariants p ty).map .enum).getD .text

def parseUsize (s : String) : Option Nat :=
  let digits := if s.startsWith "+" then (s.drop 1).toString else s
  if digits.isEmpty || !digits.all Char.isDigit then none
  else digits.toNat?.filter (· < 2 ^ 64)

/-- The elements of a bracketed cell. -/
def elements (s : String) : List String :=
  ((s.toList.dropWhile (· = '[')).rdropWhile (· = ']')).splitOn ';' |>.map String.ofList

variable {ρ : Type} (io : ValueIo ρ)

/-- The C cell as the simulator would write it, and whether they agree. -/
def read : Cmp → String → String → String × Bool
  | .text, c, ir => (c, decide (c = ir))
  | .float, c, ir =>
    match io.parseReal c, io.parseReal ir with
    | some a, some b => (c, a.eq b || (a.isNaN && b.isNaN))
    | _, _ => (c, decide (c = ir))
  | .enum variants, c, ir =>
    let name := ((parseUsize c).bind (variants[·]?)).getD c
    (name, decide (name = ir))
  | .array elem, c, ir =>
    let cs := elements c
    let irs := elements ir
    let read := cs.zipIdx.map fun (ce, k) => elem.read ce (irs[k]?.getD "")
    ("[" ++ String.intercalate ";" (read.map (·.1)) ++ "]",
      decide (cs.length = irs.length) && read.all (·.2))

end Cmp

/-- The compiled program in the loop, with the lines it has been sent. -/
structure CLoop where
  process : Process
  sent : List String
  columns : List (String × Cmp)

namespace CLoop

variable {ρ : Type} (io : ValueIo ρ)

/-- Send a line and read the answer to it. -/
def exchange (c : CLoop) (line : String) : Except SessionError (String × CLoop) :=
  let sent := c.sent ++ [line]
  match c.process sent with
  | some answer => .ok (answer, { c with sent := sent })
  | none => .error .gone

/-- The cells of an output line, and the columns that differ from the simulator's. -/
def compare (columns : List (String × Cmp)) (got : String) (irCells : List String) :
    Except SessionError (List String × List String) :=
  let parts := lineCells got
  if parts.length ≠ columns.length + 1 then .error (.unexpectedLine got)
  else
    let read := columns.zipIdx.map fun ((name, cmp), k) =>
      (name, cmp.read io (parts[k + 1]?.getD "") (irCells[k]?.getD ""))
    .ok (read.map (·.2.1), (read.filter fun r => !r.2.2).map (·.1))

/-- One cycle: send the inputs, read the outputs. -/
def step (c : CLoop) (line : String) (irCells : List String) :
    Except SessionError ((List String × List String) × CLoop) := do
  let (got, c) ← c.exchange line
  let found ← compare io c.columns got irCells
  pure (found, c)

/-- Start the program and check that it speaks the expected columns. -/
def spawn (exe : Option Process) (header : String) (columns : List (String × Cmp)) :
    Except SessionError CLoop := do
  let process ← match exe with
    | some process => pure process
    | none => .error .spawn
  let (got, c) ← CLoop.exchange ⟨process, [], columns⟩ header
  let want := "cycle" :: columns.map (·.1)
  if lineCells got ≠ want then .error (.columns got want) else pure c

end CLoop

structure FuzzCfg where
  bad : Bool
  seed : Nat
  deriving Repr

structure Breakpoint where
  expr : Expr
  project : Project
  node : String

/-- One cycle-stepping request. -/
structure RunReq where
  inputs : List (String × String)
  sequence : List (List (String × String))
  count : Nat
  brk : Option Breakpoint
  stopOnViolation : Bool
  stopOnDivergence : Bool
  fuzz : Option FuzzCfg

/-- A cycle of a run: an injected text that was refused, or inputs, with the injected
text if it was accepted. -/
inductive Planned
  | refused (name text message : String)
  | inputs (values : Env) (accepted : Option (String × String))

inductive Stopped
  | count
  | violation
  | divergence
  | breakpoint
  | cError
  | error
  deriving DecidableEq, Repr

inductive RunError
  | cycle (k : Nat) (e : EvalError)
  | breakpoint (e : EvalError)
  deriving Repr

/-- What a run reports for one cycle. -/
inductive Row
  | refused (cycle : Nat) (name text message : String)
  | stepped (cycle : Nat) (observed : Observed) (found : Option (List String × List String))
    (accepted : Option (String × String))

structure RunOut where
  rows : List Row := []
  stopped : Stopped := .count
  error : Option RunError := none
  cyclesRun : Nat := 0
  cError : Option (Nat × SessionError) := none

/-- A row replayed by an attach: its cycle, the C's cells and the columns that differ. -/
structure ReplayRow where
  cycle : Nat
  found : List String × List String
  deriving Repr

structure AttachOut where
  columns : List String
  rows : List ReplayRow
  divergedAt : Option Nat
  deriving Repr

/-- Cycles of input history kept for attaching the C mid-session. -/
def historyMax : Nat := 100000

/-- Replayed rows returned by an attach. -/
def attachRowsMax : Nat := 10000

/-- The session thread's state; `history` holds, of every cycle, the C driver's input
line and the simulator's values for the C's columns. -/
structure Runner where
  sim : MonitoredSim
  cycle : Nat
  history : List (String × List String)
  historyFull : Bool
  c : Option CLoop

namespace Runner

variable {ρ : Type} (io : ValueIo ρ) (m : Machine) (p : Project)

def node (r : Runner) : NodeDef := r.sim.sim.node

/-- One cycle's inputs as the C driver reads them: in port order, enum values by
their index. -/
def cInputLine (n : NodeDef) (inputs : Env) : String :=
  String.intercalate "," (n.inputs.map fun port =>
    match inputs port.name, enumVariants p port.ty with
    | some (.enum v), some vs => toString ((vs.findIdx? (· = v)).getD 0)
    | some v, _ => io.toCsv v
    | none, _ => "")

/-- The simulator's values for the C driver's columns: the outputs, then the
monitor's cells. -/
def comparedCells (n : NodeDef) (obs : Observed) : List String :=
  (n.outputs.map fun port =>
    ((MonitoredSim.bindings obs.values port.name).map io.toCsv).getD "") ++
  if obs.monitored then [labelList obs.activeModes, labelList obs.violations] else []

def columns (r : Runner) : List (String × Cmp) :=
  (r.node.outputs.map fun port => (port.name, Cmp.of p port.ty)) ++
  if r.sim.monitor.isSome then [("active_mode", .text), ("violations", .text)] else []

def header (n : NodeDef) : String := String.intercalate "," (n.inputs.map (·.name))

/-- The inputs of one cycle from the held texts, overridden by those of the step. -/
def heldInputs (n : NodeDef) (held : List (String × String)) (step : Option Nat)
    (override : List (String × String)) : Except SessionError Env := do
  match (held ++ override).find? fun x => !n.inputs.any (fun port => decide (port.name = x.1)) with
  | some x => .error (.unexpectedInput step x.1)
  | none =>
    n.inputs.foldlM (fun (env : Env) port =>
      match (override.lookup port.name).or (held.lookup port.name) with
      | none => .error (.missingInput step port.name)
      | some raw =>
        match io.parse raw port.ty with
        | .ok v => .ok (env.set port.name v)
        | .error message => .error (.badInput step message)) (fun _ => none : Env)

/-- Generated inputs; in bad-data mode one input receives malformed text. -/
def fuzzCycle (n : NodeDef) (bad : Bool) (k : Nat) (rng : ρ) : Except SessionError (Planned × ρ) := do
  let (env, rng) ← n.inputs.foldlM (fun ((env, rng) : Env × ρ) port =>
    match io.fuzzValue port.ty rng with
    | .ok (v, rng) => .ok (Env.set env port.name v, rng)
    | .error message => .error (.fuzz message)) ((fun _ => none : Env), rng)
  match if bad then n.inputs[k % n.inputs.length]? else none with
  | none => pure (.inputs env none, rng)
  | some port =>
    let (text, rng) := io.badText port.ty rng
    match io.parse text port.ty with
    | .ok v => pure (.inputs (Env.set env port.name v) (some (port.name, text)), rng)
    | .error message => pure (.refused port.name text message, rng)

def fuzzCycles (n : NodeDef) (bad : Bool) : Nat → Nat → ρ → Except SessionError (List Planned)
  | _, 0, _ => pure []
  | k, count + 1, rng => do
    let (planned, rng) ← fuzzCycle io n bad k rng
    let rest ← fuzzCycles n bad (k + 1) count rng
    pure (planned :: rest)

/-- Every cycle's inputs are parsed before the first one runs. -/
def plan (n : NodeDef) (req : RunReq) : Except SessionError (List Planned) :=
  match req.fuzz, req.sequence with
  | some cfg, _ => fuzzCycles io n cfg.bad 0 req.count (io.seed cfg.seed)
  | none, [] =>
    if req.count = 0 then .ok []
    else do
      -- held inputs are the same every cycle
      let env ← heldInputs io n req.inputs none []
      pure (List.replicate req.count (.inputs env none))
  | none, steps => steps.zipIdx.mapM fun (override, k) => do
      let env ← heldInputs io n req.inputs (some k) override
      pure (.inputs env none)

/-- The history after one more cycle. -/
def record (r : Runner) (entry : String × List String) : Runner :=
  if r.history.length < historyMax then { r with history := r.history ++ [entry] }
  else { r with historyFull := true }

@[simp] theorem record_sim (r : Runner) (entry : String × List String) :
    (record r entry).sim = r.sim := by
  unfold record
  split <;> rfl

@[simp] theorem record_c (r : Runner) (entry : String × List String) :
    (record r entry).c = r.c := by
  unfold record
  split <;> rfl

/-- Why a run stops after a cycle, if it does. -/
def stopAfter (req : RunReq) (brk : Option Sim) (obs : Observed) (diverged : Bool)
    (cError : Option (Nat × SessionError)) : Except Panic (Option (Stopped × Option RunError)) :=
  if req.stopOnDivergence && diverged then .ok (some (.divergence, none))
  else if req.stopOnViolation && !obs.violations.isEmpty then .ok (some (.violation, none))
  else
    let otherwise := if cError.isSome then some (.cError, none) else none
    match req.brk, brk with
    | some b, some sim =>
      match MonitoredSim.evalCondition m b.project sim b.expr obs.values with
      | .ok true => .ok (some (.breakpoint, none))
      | .ok false => .ok otherwise
      | .error (.error e) => .ok (some (.error, some (.breakpoint e)))
      | .error (.panic e) => .error e
    | _, _ => .ok otherwise

/-- What the C in the loop says of a cycle: the comparison if there is one, the
program if it stays in the loop, and its error if it does not. -/
def compareC (r : Runner) (line : String) (cells : List String) :
    Option (List String × List String) × Option CLoop × Option (Nat × SessionError) :=
  match r.c with
  | none => (none, none, none)
  | some c =>
    match c.step io line cells with
    | .ok (found, c) => (some found, some c, none)
    | .error e => (none, none, some (r.cycle, e))

/-- The runner and the report after a cycle that was observed, and whether the C in
the loop disagreed. -/
def advance (r : Runner) (out : RunOut) (env : Env) (accepted : Option (String × String))
    (obs : Observed) (sim : MonitoredSim) : Runner × RunOut × Bool :=
  let line := cInputLine io p r.node env
  let cells := comparedCells io r.node obs
  let (found, c, cError) := compareC io r line cells
  ({ record { r with sim := sim, c := c } (line, cells) with cycle := r.cycle + 1 },
    { out with
      rows := out.rows ++ [.stepped r.cycle obs found accepted]
      cyclesRun := out.cyclesRun + 1
      cError := out.cError.or cError },
    found.any fun f => !f.2.isEmpty)

/-- One planned cycle: the runner and the report after it, and whether the run goes
on.  A panic ends the thread. -/
def cycleStep (req : RunReq) (brk : Option Sim) (r : Runner) (out : RunOut) :
    Planned → Except Panic (Runner × RunOut × Bool)
  | .refused name text message =>
    .ok (r, { out with rows := out.rows ++ [.refused r.cycle name text message] }, true)
  | .inputs env accepted =>
    match MonitoredSim.stepObserved m p env r.sim with
    | (.error (.panic e), _) => .error e
    | (.error (.error e), sim) =>
      .ok ({ r with sim := sim },
        { out with stopped := .error, error := some (.cycle r.cycle e) }, false)
    | (.ok obs, sim) =>
      let (r, out, diverged) := advance io p r out env accepted obs sim
      match stopAfter m req brk obs diverged out.cError with
      | .error e => .error e
      | .ok (some (why, e)) => .ok (r, { out with stopped := why, error := e }, false)
      | .ok none => .ok (r, out, true)

def runCycles (req : RunReq) (brk : Option Sim) :
    Runner → RunOut → List Planned → Except Panic (Runner × RunOut)
  | r, out, [] => .ok (r, out)
  | r, out, planned :: rest => do
    let (r, out, goesOn) ← cycleStep io m p req brk r out planned
    if goesOn then runCycles req brk r out rest else pure (r, out)

/-- The simulator of a breakpoint's own namespace. -/
def breakpointSim (req : RunReq) : Except SessionError (Option Sim) :=
  match req.brk with
  | none => .ok none
  | some b => ((Sim.new m b.project b.node).map some).mapError .breakpoint

/-- What a run works on, once its inputs are read. -/
def prepare (r : Runner) (req : RunReq) : Except SessionError (Option Sim × List Planned) := do
  let brk ← breakpointSim m req
  let planned ← plan io r.node req
  pure (brk, planned)

/-- Replay the history from cycle `k` on. -/
def replay (c : CLoop) : Nat → List (String × List String) →
    Except SessionError (List ReplayRow × CLoop)
  | _, [] => .ok ([], c)
  | k, (line, cells) :: rest => do
    let (found, c) ← (c.step io line cells).mapError (.replaying k)
    let (rows, c) ← replay c (k + 1) rest
    pure (⟨k, found⟩ :: rows, c)

/-- Start the compiled program and replay the session so far through it. -/
def startReplay (r : Runner) (exe : Option Process) :
    Except SessionError (List ReplayRow × CLoop) := do
  let c ← CLoop.spawn exe (header r.node) (columns p r)
  replay io c 0 r.history

/-- Put the compiled program in the loop, in place of any other. -/
def attach (r : Runner) (exe : Option Process) : Except SessionError AttachOut × Runner :=
  if r.historyFull then (.error .historyFull, r)
  else
    match startReplay io p r exe with
    | .error e => (.error e, { r with c := none })
    | .ok (rows, c) =>
      (.ok ⟨c.columns.map (·.1), rows.drop (r.history.length - attachRowsMax),
        (rows.find? fun row => !row.found.2.isEmpty).map (·.cycle)⟩, { r with c := some c })

end Runner

/-- A session; the runner is gone once its thread has ended. -/
structure SimSession where
  cycle : Nat
  cColumns : Option (List String)
  runner : Option Runner

inductive Cmd
  | run (req : RunReq)
  | attachC (exe : Option Process)
  | detachC

inductive Reply
  | ran (cycle : Nat) (out : RunOut)
  | attached (out : AttachOut)
  | detached
  | failed (e : SessionError)

namespace SimSession

variable {ρ : Type} (io : ValueIo ρ) (m : Machine) (p : Project)

def start (root : String) : Except Fault SimSession := do
  let sim ← MonitoredSim.new m p root
  pure ⟨0, none, some ⟨sim, 0, [], false, none⟩⟩

def run (s : SimSession) (req : RunReq) : Reply × SimSession :=
  match s.runner with
  | none => (.failed .ended, s)
  | some r =>
    match r.prepare io m req with
    | .error e => (.failed e, s)
    | .ok (brk, planned) =>
      match Runner.runCycles io m p req brk r {} planned with
      | .error _ => (.failed .ended, { s with runner := none })
      | .ok (r, out) =>
        let cycle := s.cycle + out.cyclesRun
        (.ran cycle out,
          ⟨cycle, if out.cError.isSome then none else s.cColumns, some r⟩)

def attachC (s : SimSession) (exe : Option Process) : Reply × SimSession :=
  match s.runner with
  | none => (.failed .ended, s)
  | some r =>
    match r.attach io p exe with
    | (.error e, r) => (.failed e, { s with runner := some r })
    | (.ok out, r) => (.attached out, { s with runner := some r, cColumns := some out.columns })

def detachC (s : SimSession) : Reply × SimSession :=
  (.detached, { s with runner := s.runner.map fun r => { r with c := none }, cColumns := none })

/-- What a command replies, with the session it leaves. -/
def step (cmd : Cmd) (s : SimSession) : Reply × SimSession :=
  match cmd with
  | .run req => s.run io m p req
  | .attachC exe => s.attachC io p exe
  | .detachC => s.detachC

end SimSession

end OpenLustre.Studio
