import OpenLustre.Ir.Project

/-! Lowering of state machines to dataflow. -/

namespace OpenLustre.Ir

structure LoweredMachine where
  stateTypes : List TypeDef
  node : NodeDef
  stateLocal : String
  deriving Repr

inductive LowerError
  | noStates (machine : String)
  | unknownInitialState (machine state : String)
  | unknownTarget (machine state target : String)
  | outputUnassigned (machine output state : String)
  | duplicateState (machine state : String)
  | unknownRefine (machine state target : String)
  | refineCycle (machine target : String)
  | unknownOwner (machine owner : String)
  deriving DecidableEq, Repr

section Refines

mutual

/-- Prefix every state name, and the targets and initial states that refer to it,
throughout a resolved subtree. -/
def prefixState (pre : String) : StateDef → StateDef
  | ⟨name, equations, transitions, regions, _⟩ =>
    ⟨pre ++ name, equations, transitions.map fun t => ⟨t.guard, pre ++ t.target⟩,
      prefixRegions pre regions, none⟩
  termination_by structural st => st

def prefixStates (pre : String) : List StateDef → List StateDef
  | [] => []
  | st :: states => prefixState pre st :: prefixStates pre states
  termination_by structural states => states

def prefixRegion (pre : String) : Region → Region
  | ⟨initialState, states, history⟩ => ⟨pre ++ initialState, prefixStates pre states, history⟩
  termination_by structural r => r

def prefixRegions (pre : String) : List Region → List Region
  | [] => []
  | r :: regions => prefixRegion pre r :: prefixRegions pre regions
  termination_by structural regions => regions

end

/-- The region a state delegates to, given the resolved states of the machine. -/
def refinement (state : String) (sub : StateMachineDef) (states : List StateDef) : Region :=
  let pre := state ++ "_"
  ⟨pre ++ sub.initialState, prefixStates pre states, false⟩

section

variable (machine : String) (sub : String → String → Except LowerError Region)

mutual

/-- Inline the delegations of a state; `sub` resolves the machine a state refines. -/
def resolveState : StateDef → Except LowerError StateDef
  | ⟨name, equations, transitions, regions, refines⟩ => do
    let regions ← resolveRegions regions
    match refines with
    | none => .ok ⟨name, equations, transitions, regions, none⟩
    | some target => do
      let region ← sub name target
      .ok ⟨name, equations, transitions, regions ++ [region], none⟩
  termination_by structural st => st

def resolveStates : List StateDef → Except LowerError (List StateDef)
  | [] => .ok []
  | st :: states => do
    let st ← resolveState st
    let states ← resolveStates states
    .ok (st :: states)
  termination_by structural states => states

def resolveRegion : Region → Except LowerError Region
  | ⟨initialState, states, history⟩ => do
    let states ← resolveStates states
    .ok ⟨initialState, states, history⟩
  termination_by structural r => r

def resolveRegions : List Region → Except LowerError (List Region)
  | [] => .ok []
  | r :: regions => do
    let r ← resolveRegion r
    let regions ← resolveRegions regions
    .ok (r :: regions)
  termination_by structural regions => regions

end

end

/-- Machines by name; of two with one name the last counts. -/
def machineByName (machines : List StateMachineDef) (name : String) : Option StateMachineDef :=
  machines.reverse.find? (·.name = name)

/-- The machine that `state` refines, resolved.  A chain of delegations repeats
no machine of the `stack`, so it is no longer than the machines. -/
def resolveRefinement (machine : String) (machines : List StateMachineDef) :
    Nat → List String → String → String → Except LowerError Region
  | 0, _, _, target => .error (.refineCycle machine target)
  | fuel + 1, stack, state, target =>
    if stack.contains target then .error (.refineCycle machine target)
    else
      match machineByName machines target with
      | none => .error (.unknownRefine machine state target)
      | some sub => do
        let states ← resolveStates
          (resolveRefinement machine machines fuel (target :: stack)) sub.states
        .ok (refinement state sub states)

/-- Resolve every `refines` reference into an inlined nested region. -/
def resolveRefines (sm : StateMachineDef) (machines : List StateMachineDef) :
    Except LowerError StateMachineDef := do
  let states ← resolveStates
    (resolveRefinement sm.name machines (machines.length + 1) [sm.name]) sm.states
  .ok { sm with states := states }

end Refines

section Validation

/-- The equation of a state that assigns `o`. -/
def StateDef.equationOf (o : String) (st : StateDef) : Option Equation :=
  st.equations.find? fun e => e.lhs == [o]

mutual

def collectState : StateDef → List String
  | ⟨name, _, _, regions, _⟩ => name :: collectRegions regions
  termination_by structural st => st

def collectStateNames : List StateDef → List String
  | [] => []
  | st :: states => collectState st ++ collectStateNames states
  termination_by structural states => states

def collectRegion : Region → List String
  | ⟨_, states, _⟩ => collectStateNames states
  termination_by structural r => r

def collectRegions : List Region → List String
  | [] => []
  | r :: regions => collectRegion r ++ collectRegions regions
  termination_by structural regions => regions

end

/-- The first name that an earlier one repeats. -/
def firstDuplicate : List String → List String → Option String
  | _, [] => none
  | seen, n :: names => if seen.contains n then some n else firstDuplicate (n :: seen) names

def checkTargets (machine state : String) (names : List String) :
    List Transition → Except LowerError Unit
  | [] => .ok ()
  | t :: transitions =>
    if names.contains t.target then checkTargets machine state names transitions
    else .error (.unknownTarget machine state t.target)

mutual

def validateState (machine : String) (names : List String) : StateDef → Except LowerError Unit
  | ⟨name, _, transitions, regions, _⟩ => do
    checkTargets machine name names transitions
    validateRegions machine regions
  termination_by structural st => st

def validateStates (machine : String) (names : List String) :
    List StateDef → Except LowerError Unit
  | [] => .ok ()
  | st :: states => do
    validateState machine names st
    validateStates machine names states
  termination_by structural states => states

def validateRegion (machine : String) : Region → Except LowerError Unit
  | ⟨initialState, states, _⟩ =>
    if (states.map (·.name)).contains initialState then
      validateStates machine (states.map (·.name)) states
    else .error (.unknownInitialState machine initialState)
  termination_by structural r => r

def validateRegions (machine : String) : List Region → Except LowerError Unit
  | [] => .ok ()
  | r :: regions => do
    validateRegion machine r
    validateRegions machine regions
  termination_by structural regions => regions

end

mutual

/-- Does a state assign `o`, directly or through a region that covers it on every
path? -/
def stateCovers (o : String) : StateDef → Bool
  | ⟨_, equations, _, regions, _⟩ => equations.any (·.lhs == [o]) || anyRegionCovers o regions
  termination_by structural st => st

def allStatesCover (o : String) : List StateDef → Bool
  | [] => true
  | st :: states => stateCovers o st && allStatesCover o states
  termination_by structural states => states

def regionCovers (o : String) : Region → Bool
  | ⟨_, states, _⟩ => allStatesCover o states
  termination_by structural r => r

def anyRegionCovers (o : String) : List Region → Bool
  | [] => false
  | r :: regions => regionCovers o r || anyRegionCovers o regions
  termination_by structural regions => regions

end

mutual

def requireCoverState (machine o : String) : StateDef → Except LowerError Unit
  | ⟨name, equations, _, regions, _⟩ =>
    if equations.any (·.lhs == [o]) then .ok ()
    else requireAnyCover machine o (.outputUnassigned machine o name) true regions
  termination_by structural st => st

/-- Every state must cover `o`; the error points at the first that does not. -/
def requireCover (machine o : String) : List StateDef → Except LowerError Unit
  | [] => .ok ()
  | st :: states => do
    requireCoverState machine o st
    requireCover machine o states
  termination_by structural states => states

def requireCoverRegion (machine o : String) : Region → Except LowerError Unit
  | ⟨_, states, _⟩ => requireCover machine o states
  termination_by structural r => r

/-- One of the regions must cover `o`; `err` is the error when none does, that of
the first region if there is one. -/
def requireAnyCover (machine o : String) (err : LowerError) (first : Bool) :
    List Region → Except LowerError Unit
  | [] => .error err
  | r :: regions =>
    match requireCoverRegion machine o r with
    | .ok () => .ok ()
    | .error e => requireAnyCover machine o (if first then e else err) false regions
  termination_by structural regions => regions

end

end Validation

section Lowering

mutual

/-- The lowered shape of a region: the name of its state variable and, per state,
the state's definition and the regions nested inside it. -/
structure RegionInfo where
  region : Region
  stateVar : String
  states : List StateNode
  deriving Repr

structure StateNode where
  state : StateDef
  nested : List RegionInfo
  deriving Repr

end

structure Lower where
  enums : List TypeDef
  locals : List Local
  equations : List Equation
  nextId : Nat
  deriving Repr

namespace Lower

def declare (lo : Lower) (name : String) (ty : Ty) : Lower :=
  { lo with locals := lo.locals ++ [⟨name, ty⟩] }

def define (lo : Lower) (name : String) (rhs : Expr) : Lower :=
  { lo with equations := lo.equations ++ [⟨[name], rhs⟩] }

end Lower

/-- The names that the lowering of a region generates. -/
structure RegionNames where
  stateVar : String
  nextVar : String
  enumName : String
  activeVar : String
  deriving DecidableEq, Repr

def stateLocal : String := "__sm_state"
def nextStateLocal : String := "__sm_next_state"

def regionNames (machine : String) (id : Nat) : RegionNames :=
  let r := "r" ++ toString id
  let active := "__sm_" ++ r ++ "_active"
  if id = 0 then ⟨stateLocal, nextStateLocal, machine ++ "_StateEnum", active⟩
  else ⟨"__sm_" ++ r ++ "_state", "__sm_" ++ r ++ "_next", machine ++ "_" ++ r ++ "_StateEnum", active⟩

/-- Is `var` the state `name`? -/
def inState (var name : String) : Expr := .binary .eq (.var var) (.var name)

/-- The target of the first transition whose guard holds, else no move. -/
def transitionChain (stateVar : String) (transitions : List Transition) : Expr :=
  transitions.foldr (fun t inner => .ifThenElse t.guard (.var t.target) inner) (.var stateVar)

/-- The next-state chain of a region's states.  The last state needs no test of
its own. -/
def buildNextStateChain (stateVar : String) : List StateDef → Expr
  | [] => .var stateVar
  | [st] => transitionChain stateVar st.transitions
  | st :: states =>
    .ifThenElse (inState stateVar st.name) (transitionChain stateVar st.transitions)
      (buildNextStateChain stateVar states)

/-- The state equation of a nested region: restart on entry unless it keeps
history. -/
def nestedStateRhs (initial nextVar activeVar : String) (history : Bool) : Expr :=
  let resume : Expr := .arrow (.var initial) (.pre (.var nextVar))
  if history then resume
  else
    let justEntered : Expr := .binary .and (.var activeVar)
      (.arrow (.const (.bool true)) (.unary .not (.pre (.var activeVar))))
    .ifThenElse justEntered (.var initial) resume

/-- The state and next-state equations of a region; a nested region also defines
the variable that says when it is active. -/
def regionEquations (names : RegionNames) (active : Option Expr) : Region → List Equation
  | ⟨initial, states, history⟩ =>
    let chain := buildNextStateChain names.stateVar states
    match active with
    | none => [
        ⟨[names.stateVar], .arrow (.var initial) (.pre (.var names.nextVar))⟩,
        ⟨[names.nextVar], chain⟩]
    | some active => [
        ⟨[names.activeVar], active⟩,
        ⟨[names.stateVar], nestedStateRhs initial names.nextVar names.activeVar history⟩,
        ⟨[names.nextVar], .ifThenElse (.var names.activeVar) chain (.var names.stateVar)⟩]

def regionLocals (names : RegionNames) (nested : Bool) : List Local :=
  let states : List Local :=
    [⟨names.stateVar, .named names.enumName⟩, ⟨names.nextVar, .named names.enumName⟩]
  if nested then states ++ [⟨names.activeVar, .bool⟩] else states

/-- When a region nested in the state `name` of a region is active. -/
def nestedActive (stateVar : String) (activeVar : Option String) (name : String) : Expr :=
  match activeVar with
  | some av => .binary .and (.var av) (inState stateVar name)
  | none => inState stateVar name

section

variable (machine : String)

mutual

/-- Emit the state enumeration, locals and equations of a region and of those
nested in it.  `active` is the condition under which the region runs; the top
automaton, which has none, runs every cycle. -/
def emitRegion (active : Option Expr) : Region → Lower → RegionInfo × Lower
  | ⟨initial, states, history⟩, lo =>
    let names := regionNames machine lo.nextId
    let region : Region := ⟨initial, states, history⟩
    let lo : Lower := {
      enums := lo.enums ++ [⟨.enum ⟨names.enumName, states.map (·.name)⟩⟩]
      locals := lo.locals ++ regionLocals names active.isSome
      equations := lo.equations ++ regionEquations names active region
      nextId := lo.nextId + 1 }
    let (nodes, lo) := emitStates names.stateVar (active.map fun _ => names.activeVar) states lo
    (⟨region, names.stateVar, nodes⟩, lo)
  termination_by structural r => r

def emitState (stateVar : String) (activeVar : Option String) :
    StateDef → Lower → StateNode × Lower
  | ⟨name, equations, transitions, regions, refines⟩, lo =>
    let (nested, lo) := emitRegions (nestedActive stateVar activeVar name) regions lo
    (⟨⟨name, equations, transitions, regions, refines⟩, nested⟩, lo)
  termination_by structural st => st

def emitStates (stateVar : String) (activeVar : Option String) :
    List StateDef → Lower → List StateNode × Lower
  | [], lo => ([], lo)
  | st :: states, lo =>
    let (node, lo) := emitState stateVar activeVar st lo
    let (nodes, lo) := emitStates stateVar activeVar states lo
    (node :: nodes, lo)
  termination_by structural states => states

def emitRegions (active : Expr) : List Region → Lower → List RegionInfo × Lower
  | [], lo => ([], lo)
  | r :: regions, lo =>
    let (info, lo) := emitRegion (some active) r lo
    let (infos, lo) := emitRegions active regions lo
    (info :: infos, lo)
  termination_by structural regions => regions

end

end

def defaultExprForType : Ty → Expr
  | .bool => .const (.bool false)
  | .float32 | .float64 => .const (.float (.zero false))
  | .char => .const (.char 0)
  | _ => .const (.int 0)

mutual

/-- The value of output `o` selected across the states of a region. -/
def valueOf (o : String) (ty : Ty) : RegionInfo → Expr
  | ⟨_, stateVar, states⟩ => valueChain o ty stateVar states
  termination_by structural info => info

/-- One test per state; the last state needs none. -/
def valueChain (o : String) (ty : Ty) (stateVar : String) : List StateNode → Expr
  | [] => defaultExprForType ty
  | node :: nodes =>
    match nodes with
    | [] => valueInState o ty node
    | nodes => .ifThenElse (inState stateVar node.state.name) (valueInState o ty node)
      (valueChain o ty stateVar nodes)
  termination_by structural nodes => nodes

/-- A nested region that drives `o` on every path takes precedence over the
state's own equation. -/
def valueInState (o : String) (ty : Ty) : StateNode → Expr
  | ⟨state, nested⟩ =>
    (valueInRegions o ty nested).getD
      (((state.equationOf o).map (·.rhs)).getD (defaultExprForType ty))
  termination_by structural node => node

def valueInRegions (o : String) (ty : Ty) : List RegionInfo → Option Expr
  | [] => none
  | info :: infos =>
    if regionCovers o info.region then some (valueOf o ty info) else valueInRegions o ty infos
  termination_by structural infos => infos

end

def StateMachineDef.top (sm : StateMachineDef) : Region := ⟨sm.initialState, sm.states, false⟩

/-- The regions of a machine with their names, and what they emit. -/
def StateMachineDef.emit (sm : StateMachineDef) : RegionInfo × Lower :=
  emitRegion sm.name none sm.top ⟨[], sm.locals, [], 0⟩

def checkOutputs (sm : StateMachineDef) : List Port → Except LowerError Unit
  | [] => .ok ()
  | out :: outs => do
    requireCover sm.name out.name sm.states
    checkOutputs sm outs

/-- Lower a machine with no delegations left. -/
def lower (sm : StateMachineDef) : Except LowerError LoweredMachine := do
  if sm.states.isEmpty then .error (.noStates sm.name)
  match firstDuplicate [] (collectStateNames sm.states) with
  | some n => .error (.duplicateState sm.name n)
  | none => .ok ()
  validateRegion sm.name sm.top
  checkOutputs sm sm.outputs
  let (top, lo) := sm.emit
  .ok {
    stateTypes := lo.enums
    node := {
      name := sm.name
      kind := .operator
      inputs := sm.inputs
      outputs := sm.outputs
      locals := lo.locals
      equations := lo.equations ++
        sm.outputs.map fun out => ⟨[out.name], valueOf out.name out.ty top⟩ }
    stateLocal := stateLocal }

end Lowering

end OpenLustre.Ir
