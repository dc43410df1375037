import OpenLustre.ContractIr.Observer
import OpenLustre.Sim.Run

/-! A simulation together with the observer of its contract. -/

namespace OpenLustre.Simulator

open OpenLustre.Ir OpenLustre.ContractIr

/-- A simulation of a node, with the observer that monitors its contract and the
observer's own instance states. -/
structure MonitoredSim where
  sim : Sim
  monitor : Option (ContractDef × Observer)
  observerCalls : Calls

/-- One observed cycle: every signal's value, and what the monitor found. -/
structure Observed where
  values : List (String × Value)
  activeModes : List String
  violations : List String
  monitored : Bool

/-- The cell a list of mode names or clause labels has in a trace. -/
def labelList (items : List String) : String :=
  if items.isEmpty then "<none>"
  else String.ofList ((String.intercalate "|" items).toList.map fun c => if c = ',' then ';' else c)

namespace MonitoredSim

variable (m : Machine) (p : Project)

def findContract (name : String) : Option ContractDef :=
  p.packages.findSome? fun pkg => pkg.contracts.find? (·.name = name)

def new (name : String) : Except Fault MonitoredSim := do
  let sim ← Sim.new m p name
  let contract := sim.node.contract.bind (findContract p)
  pure ⟨sim, contract.map fun c => (c, ContractDef.observer c), Calls.empty⟩

/-- The site the observer's instance is kept at. -/
def observerSite : Site := ⟨"", 0, []⟩

/-- What the observer reads: an input, or else an output. -/
def observerArg (c : ContractDef) (inputs outputs : Env) (port : Port) : Except Fault Value :=
  match (inputs port.name).or (outputs port.name) with
  | some v => .ok v
  | none => error (.contractReads c.name port.name)

/-- A step's results as signal values. -/
def signalValues : Value → List Bool
  | .tuple items => items.map fun v => v.asBool.getD false
  | v => [v.asBool.getD false]

/-- Step the observer on a cycle's inputs and outputs. -/
def clauseValues (c : ContractDef) (obs : Observer) (consts inputs outputs : Env) :
    EvalM (List Bool) := do
  let args ← .lift (obs.node.inputs.mapM (observerArg c inputs outputs))
  if obs.signals.isEmpty then pure []
  else
    let out ← stepInstance m p (callees m p m.stack) observerSite obs.node args consts
    pure (signalValues out)

/-- Step the observer and interpret its signals. -/
def observe (c : ContractDef) (obs : Observer) (consts inputs outputs : Env) :
    EvalM (List String × List String) := do
  let values ← clauseValues m p c obs consts inputs outputs
  pure (obs.verdict c values)

def valueOf (env : Env) (port : Port) : Except Fault (String × Value) :=
  match env port.name with
  | some v => .ok (port.name, v)
  | none => (defaultValue p m.stack port.ty).map fun v => (port.name, v)

/-- The bindings of a list, the last one of a name first. -/
def bindings (values : List (String × Value)) : Env := fun x => values.reverse.lookup x

/-- The values of the inputs and locals, and those of the outputs. -/
def signalsOf (n : NodeDef) (env : Env) :
    Except Fault (List (String × Value) × List (String × Value)) := do
  let signals ← (n.inputs ++ n.locals).mapM (valueOf m p env)
  let outputs ← n.outputs.mapM (valueOf m p env)
  pure (signals, outputs)

/-- Step one cycle and observe everything: inputs, locals and outputs in this order,
and the monitor's verdict. -/
def stepObserved (inputs : Env) : Stateful Fault MonitoredSim Observed := fun ms =>
  match Sim.stepEnv m p inputs ms.sim with
  | (.error e, sim) => (.error e, { ms with sim := sim })
  | (.ok env, sim) =>
    match signalsOf m p sim.node env with
    | .error e => (.error e, { ms with sim := sim })
    | .ok (signals, outputs) =>
      match ms.monitor with
      | none => (.ok ⟨signals ++ outputs, [], [], false⟩, { ms with sim := sim })
      | some (c, obs) =>
        match observe m p c obs sim.consts inputs (bindings outputs) ms.observerCalls with
        | (.error e, calls) => (.error e, { ms with sim := sim, observerCalls := calls })
        | (.ok (activeModes, violations), calls) =>
          (.ok ⟨signals ++ outputs, activeModes, violations, true⟩,
            { ms with sim := sim, observerCalls := calls })

/-- Evaluate a condition over one cycle's signal values. -/
def evalCondition (sim : Sim) (e : Expr) (values : List (String × Value)) : Except Fault Bool := do
  let env := Env.extend sim.consts (bindings values)
  let v ← (eval m p (callees m p m.stack) ⟨env, .initial, []⟩ ⟨"", 0, []⟩ e Calls.empty).1
  asBool v .breakpointNotBool

section

variable {m p}

theorem stepObserved_sim (env : Env) (sim : MonitoredSim) :
    (stepObserved m p env sim).2.sim = (Sim.stepEnv m p env sim.sim).2 := by
  obtain ⟨r, sim', hstep⟩ : ∃ r sim', Sim.stepEnv m p env sim.sim = (r, sim') := ⟨_, _, rfl⟩
  simp only [stepObserved, hstep]
  rcases r with _ | env'
  · rfl
  · dsimp only
    rcases signalsOf m p sim'.node env' with _ | ⟨signals, outputs⟩
    · rfl
    · dsimp only
      rcases sim.monitor with _ | ⟨c, obs⟩
      · rfl
      · obtain ⟨r, calls, hobserve⟩ : ∃ r calls, observe m p c obs sim'.consts env
            (bindings outputs) sim.observerCalls = (r, calls) := ⟨_, _, rfl⟩
        simp only [hobserve]
        rcases r with _ | _ <;> rfl

theorem stepObserved_monitor (env : Env) (sim : MonitoredSim) :
    (stepObserved m p env sim).2.monitor = sim.monitor := by
  unfold stepObserved
  split
  · rfl
  · split
    · rfl
    · split
      case h_1 => rfl
      case h_2 => split <;> rfl

end

end MonitoredSim

end OpenLustre.Simulator
