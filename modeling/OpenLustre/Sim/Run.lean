import OpenLustre.Ir.Order
import OpenLustre.Sim.Eval

/-! Node instances, function applications and the simulator's step. -/

namespace OpenLustre.Simulator

open OpenLustre.Ir

def Env.unset (env : Env) (name : String) : Env :=
  fun x => if x = name then none else env x

/-- Insert every binding of `news` into `env`. -/
def Env.extend (env news : Env) : Env := fun x => (news x).or (env x)

/-- The declared type of an output or local of a node. -/
def declaredType (n : NodeDef) (name : String) : Option Ty :=
  ((n.outputs ++ n.locals).find? (·.name = name)).map (·.ty)

/-- A node that never uses clocks has no clock information. -/
def clocksOf (n : NodeDef) : ClockInfo := if nodeUsesClocks n then inferClocks n else {}

def bodyOrder (n : NodeDef) : Except Fault (List Nat) :=
  (evaluationOrder n).mapError fun msg => .error (.unorderable n.name msg)

def takeOutputs : List Port → Env → List Value
  | [], _ => []
  | port :: ports, env =>
    (env port.name).getD (.bool false) :: takeOutputs ports (env.unset port.name)

def extractOutput (n : NodeDef) (env : Env) : Value :=
  match takeOutputs n.outputs env with
  | [v] => v
  | vs => .tuple vs

/-- Count this cycle for every chain that was active. -/
def tickChains (env : Env) : List Clock → Stateful Fault (String → Nat) Unit
  | [] => pure ()
  | ck :: chains => do
    let active ← .lift (clockActive ck env)
    let ticks ← .get
    if active then
      .set fun key => if key = ck.key then ticks key + 1 else ticks key
    tickChains env chains

section

variable (m : Machine) (p : Project)

def store (n : NodeDef) (env : Env) (name : String) (v : Value) : Except Fault Env :=
  match declaredType n name with
  | some t => (fitTo p m.stack t v).map (env.set name)
  | none => .ok (env.set name v)

def bindLhs (n : NodeDef) (eq : Equation) (env : Env) (v : Value) : Except Fault Env :=
  match eq.lhs with
  | [x] => store m p n env x v
  | lhs =>
    match v with
    | .tuple items => (lhs.zip items).foldlM (fun env (x, v) => store m p n env x v) env
    | v => .error (.error (.notTuple v))

def isActive (info : ClockInfo) (i : Nat) (env : Env) : Except Fault Bool :=
  match info.equationClocks[i]? with
  | some ck => clockActive ck env
  | none => .ok true

/-- Evaluate one equation, unless its clock is inactive. -/
def equationStep (cs : Callees) (n : NodeDef) (info : ClockInfo) (state : State) (env : Env)
    (i : Nat) : EvalM Env :=
  match n.equations[i]? with
  | none => pure env
  | some eq => do
    if ← .lift (isActive info i env) then
      let v ← eval m p cs ⟨env, state, info.siteClocks⟩ ⟨n.name, i, []⟩ eq.rhs
      .lift (bindLhs m p n eq env v)
    else pure env

def equationSteps (cs : Callees) (n : NodeDef) (info : ClockInfo) (state : State) :
    List Nat → Env → EvalM Env
  | [], env => pure env
  | i :: order, env => do
    let env ← equationStep m p cs n info state env i
    equationSteps cs n info state order env

/-- Passing an argument converts it like an assignment to the input. -/
def calleeEnv (n : NodeDef) (args : List Value) (consts : Env) : Except Fault Env := do
  let env ← (n.inputs.zip args).foldlM (fun env ((port : Port), v) =>
    (fitTo p m.stack port.ty v).map (env.set port.name)) consts
  (n.outputs ++ n.locals).foldlM (fun env (port : Port) =>
    (defaultValue p m.stack port.ty).map (env.set port.name)) env

/-- Outputs and locals hold the value of the instance's previous snapshot. -/
def reseed (n : NodeDef) (prev : String → Option Value) (env : Env) : Env :=
  (n.outputs ++ n.locals).foldl (fun env port =>
    match prev port.name with
    | some v => env.set port.name v
    | none => env) env

/-- The state after a cycle that ended in `env`. -/
def State.next (state : State) (env : Env) (ticks : String → Nat) (childCalls : Calls) : State where
  cycle := state.cycle + 1
  prev := Env.extend state.prev env
  clockTicks := ticks
  childCalls := childCalls

/-- Run one cycle of the instance at `key`.  Its state is taken out for the
cycle and put back at the end of one that succeeds. -/
def stepOperator (cs : Callees) (key : Site) (n : NodeDef) (order : List Nat) (env : Env) :
    EvalM Value := do
  let calls ← .get
  let state := (calls key).getD .initial
  .set (calls.set key none)
  let info := clocksOf n
  let (env, childCalls) ← .within state.childCalls
    (equationSteps m p cs n info state order (reseed n state.prev env))
  let ((), ticks) ← .within state.clockTicks (tickChains env info.chains)
  .set (calls.set key (some (state.next env ticks childCalls)))
  pure (extractOutput n env)

/-- Run one cycle of a call on evaluated arguments; `consts` is the environment
the project's constants are taken from. -/
def stepInstance (cs : Callees) (key : Site) (n : NodeDef) (args : List Value) (consts : Env) :
    EvalM Value := do
  let env ← .lift (calleeEnv m p n args consts)
  let order ← .lift (bodyOrder n)
  match n.kind with
  | .function => do
    let env ← equationSteps m p cs n (clocksOf n) .initial order env
    pure (extractOutput n env)
  | .operator => stepOperator m p cs key n order env
  | .imported => .fail (.panic .unreachable)

/-- Apply a stateless function to evaluated arguments. -/
def callFunctionValues (cs : Callees) (n : NodeDef) (args : List Value) (consts : Env) :
    Except Fault Value := do
  if args.length ≠ n.inputs.length then
    .error (.error (.iteratedArity n.name n.inputs.length args.length))
  let env ← calleeEnv m p n args consts
  let order ← bodyOrder n
  let env ← (equationSteps m p cs n {} .initial order env Calls.empty).1
  pure (extractOutput n env)

/-- Calls to a nesting depth. -/
def callees : Nat → Callees
  | 0 => ⟨fun _ _ _ _ => .fail (.panic .stackOverflow), fun _ _ _ => .error (.panic .stackOverflow)⟩
  | depth + 1 => ⟨stepInstance m p (callees depth), callFunctionValues m p (callees depth)⟩

/-- Evaluate a constant in the environment of the constants before it. -/
def evalConstant (consts : Env) (c : ConstDef) : Except Fault Env :=
  match (eval m p (callees m p m.stack) ⟨consts, .initial, []⟩ ⟨c.name, 0, []⟩ c.value
    Calls.empty).1 with
  | .ok v => (fitTo p m.stack c.ty v).map (consts.set c.name)
  | .error (.error e) => .error (.error (.constant c.name e))
  | .error (.panic e) => .error (.panic e)

def evalConstants : Except Fault Env := p.allConstants.foldlM (evalConstant m p) fun _ => none

end

/-- A simulation of one node of a project. -/
structure Sim where
  node : NodeDef
  state : State
  callStates : Calls
  consts : Env
  eqOrder : List Nat
  clockInfo : ClockInfo

namespace Sim

variable (m : Machine) (p : Project)

def new (name : String) : Except Fault Sim :=
  match p.findNode name with
  | none => .error (.error (.unknownNode name))
  | some node => do
    let consts ← evalConstants m p
    let eqOrder ← (evaluationOrder node).mapError fun msg => .error (.unorderableRoot msg)
    pure {
      node := node
      state := .initial
      callStates := Calls.empty
      consts := consts
      eqOrder := eqOrder
      clockInfo := clocksOf node }

/-- Give a port that has no value its previous one, or its default. -/
def seedPort (prev : String → Option Value) (env : Env) (port : Port) : Except Fault Env :=
  match env port.name with
  | some _ => .ok env
  | none =>
    match prev port.name with
    | some v => .ok (env.set port.name v)
    | none => (defaultValue p m.stack port.ty).map (env.set port.name)

/-- The environment a cycle starts from: the constants, the inputs, and the
outputs and locals held from the previous cycle. -/
def seed (sim : Sim) (inputs : Env) : Except Fault Env :=
  (sim.node.outputs ++ sim.node.locals).foldlM (seedPort m p sim.state.prev)
    (Env.extend sim.consts inputs)

/-- One cycle; every named item has its value in the environment it ends in. -/
def stepEnv (inputs : Env) : Stateful Fault Sim Env := fun sim =>
  match sim.seed m p inputs with
  | .error e => (.error e, sim)
  | .ok env =>
    match equationSteps m p (callees m p m.stack) sim.node sim.clockInfo sim.state sim.eqOrder env
      sim.callStates with
    | (.error e, calls) => (.error e, { sim with callStates := calls })
    | (.ok env, calls) =>
      match tickChains env sim.clockInfo.chains sim.state.clockTicks with
      | (.error e, ticks) =>
        (.error e, { sim with callStates := calls, state := { sim.state with clockTicks := ticks } })
      | (.ok (), ticks) =>
        (.ok env,
          { sim with callStates := calls, state := sim.state.next env ticks sim.state.childCalls })

/-- The outputs of a cycle, by name. -/
def outputs (node : NodeDef) (env : Env) : Except Fault (List (String × Value)) :=
  node.outputs.foldlM (fun out (port : Port) =>
    match env port.name with
    | some v => .ok (insertField port.name v out)
    | none => (defaultValue p m.stack port.ty).map fun v => insertField port.name v out) []

def step (inputs : Env) : Stateful Fault Sim (List (String × Value)) := do
  let env ← stepEnv m p inputs
  let sim ← .get
  .lift (outputs m p sim.node env)

/-- The simulators reached by stepping through a list of inputs, with what each
step returned. -/
def run (sim : Sim) : List Env → List (Except Fault (List (String × Value)) × Sim)
  | [] => []
  | inputs :: rest =>
    let (r, sim') := step m p inputs sim
    (r, sim') :: run sim' rest

/-- The simulators a run passes through, the initial one first. -/
def reached (sim : Sim) (rows : List Env) : List Sim := sim :: (sim.run m p rows).map (·.2)

/-- What a step keeps of the simulator. -/
structure SameNode (a b : Sim) : Prop where
  node : b.node = a.node
  eqOrder : b.eqOrder = a.eqOrder
  clockInfo : b.clockInfo = a.clockInfo
  consts : b.consts = a.consts

theorem SameNode.refl (a : Sim) : SameNode a a := ⟨rfl, rfl, rfl, rfl⟩

theorem SameNode.trans {a b c : Sim} (hab : SameNode a b) (hbc : SameNode b c) : SameNode a c :=
  ⟨hbc.node.trans hab.node, hbc.eqOrder.trans hab.eqOrder, hbc.clockInfo.trans hab.clockInfo,
    hbc.consts.trans hab.consts⟩

section

variable {m p} {sim sim' : Sim}

theorem stepEnv_sameNode (inputs : Env) : SameNode sim (stepEnv m p inputs sim).2 := by
  unfold stepEnv
  split
  case h_1 => exact .refl sim
  case h_2 =>
    split
    case h_1 => exact ⟨rfl, rfl, rfl, rfl⟩
    case h_2 => split <;> exact ⟨rfl, rfl, rfl, rfl⟩

theorem step_state (inputs : Env) : (step m p inputs sim).2 = (stepEnv m p inputs sim).2 := by
  unfold step
  rw [Stateful.bind_apply]
  rcases stepEnv m p inputs sim with ⟨_ | _, _⟩ <;> rfl

theorem sameNode_of_mem_reached {rows : List Env} (h : sim' ∈ sim.reached m p rows) :
    SameNode sim sim' := by
  induction rows generalizing sim with
  | nil =>
    obtain rfl : sim' = sim := by simpa [reached, run] using h
    exact .refl sim'
  | cons inputs rows ih =>
    rcases List.mem_cons.mp h with rfl | h
    · exact .refl sim'
    · have hstep : SameNode sim (step m p inputs sim).2 := by
        rw [step_state]
        exact stepEnv_sameNode inputs
      exact hstep.trans (ih h)

theorem new_eq_ok {name : String} (h : new m p name = .ok sim) :
    p.findNode name = some sim.node ∧ evalConstants m p = .ok sim.consts ∧
      evaluationOrder sim.node = .ok sim.eqOrder ∧ sim.clockInfo = clocksOf sim.node ∧
      sim.state = .initial ∧ sim.callStates = Calls.empty := by
  unfold new at h
  split at h
  case h_1 => simp at h
  case h_2 node hnode =>
    obtain ⟨consts, hconsts, h⟩ := Except.bind_eq_ok.mp h
    obtain ⟨order, horder, h⟩ := Except.bind_eq_ok.mp h
    cases h
    exact ⟨hnode, hconsts, Except.mapError_eq_ok.mp horder, rfl, rfl, rfl⟩

end

end Sim

end OpenLustre.Simulator
