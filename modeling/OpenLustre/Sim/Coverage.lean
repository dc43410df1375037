import OpenLustre.Lib.Recording
import OpenLustre.LustreEmit.Format
import OpenLustre.Sim.Run

/-! Decision and MC/DC coverage: the sites a simulation registers, and evaluation
with recording switched on. -/

namespace OpenLustre.Simulator

open OpenLustre.Ir OpenLustre.LustreEmit

/-- One if-condition with its observed outcomes. -/
structure DecisionSite where
  key : Site
  node : String
  context : String
  condition : String
  seenTrue : Bool
  seenFalse : Bool
  deriving Repr

/-- One observed evaluation of a decision: each condition's value, and the outcome. -/
structure McdcTrial where
  values : List Bool
  outcome : Bool
  deriving DecidableEq, Repr

/-- A decision with its conditions and the distinct trials observed so far. -/
structure DecisionData where
  key : Site
  node : String
  context : String
  decisionText : String
  conditions : List (Site × String)
  trials : List McdcTrial
  deriving Repr

structure Coverage where
  sites : List DecisionSite := []
  decisions : List DecisionData := []
  deriving Repr

/-- The values of a decision's conditions, as they were observed. -/
abbrev Observations := List (Site × Bool)

/-- How a connective combines its operands; none for any other operator. -/
def connective : BinOp → Option (Bool → Bool → Bool)
  | .and => some fun a b => a && b
  | .or => some fun a b => a || b
  | .xor => some fun a b => a ^^ b
  | .implies => some fun a b => !a || b
  | _ => none

/-- The atomic conditions of a decision, in evaluation order. -/
def decisionConditions (site : Site) : Expr → List (Site × String)
  | .binary op lhs rhs =>
    if (connective op).isSome then
      decisionConditions (site.child 0) lhs ++ decisionConditions (site.child 1) rhs
    else [(site, formatExpr (.binary op lhs rhs))]
  | .unary .not arg => decisionConditions (site.child 0) arg
  | e => [(site, formatExpr e)]

namespace Coverage

variable (c : Coverage)

def mark (key : Site) (outcome : Bool) : Coverage :=
  { c with sites := c.sites.map fun s =>
      if s.key = key then
        if outcome then { s with seenTrue := true } else { s with seenFalse := true }
      else s }

def isRoot (key : Site) : Bool := c.decisions.any fun d => decide (d.key = key)

/-- Record one trial of the decision at `root`, in the decision's condition order. -/
def recordTrial (root : Site) (obs : Observations) (outcome : Bool) : Coverage :=
  { c with decisions := c.decisions.map fun d =>
      if d.key = root then
        let trial := ⟨d.conditions.map fun p => (obs.lookup p.1).getD false, outcome⟩
        if trial ∈ d.trials then d else { d with trials := d.trials ++ [trial] }
      else d }

def registerDecision (node ctx : String) (key : Site) (root : Expr) : Coverage :=
  if c.isRoot key then c
  else { c with decisions := c.decisions ++
      [⟨key, node, ctx, formatExpr root, decisionConditions key root, []⟩] }

def registerSite (node ctx : String) (key : Site) (cond : Expr) : Coverage :=
  if c.sites.any (fun s => decide (s.key = key)) then c
  else { c with sites := c.sites ++ [⟨key, node, ctx, formatExpr cond, false, false⟩] }

/-- A right-hand side with two or more conditions is a decision in its own right,
and so is every if-condition. -/
def registerEquation (n : NodeDef) (i : Nat) (eq : Equation) : Coverage :=
  let ctx := String.intercalate ", " eq.lhs
  let site : Site := ⟨n.name, i, []⟩
  let c :=
    if (decisionConditions site eq.rhs).length ≥ 2 then c.registerDecision n.name ctx site eq.rhs
    else c
  (Site.subterms site eq.rhs).foldl (fun c (s, e) =>
    match e with
    | .ifThenElse cond _ _ =>
      (c.registerSite n.name ctx (s.child 0) cond).registerDecision n.name ctx (s.child 0) cond
    | _ => c) c

def registerNode (n : NodeDef) : Coverage :=
  n.equations.zipIdx.foldl (fun c (eq, i) => c.registerEquation n i eq) c

end Coverage

/-- The names of the nodes an expression calls, in order. -/
def calleeNames (e : Expr) : List String :=
  e.subterms.filterMap fun
    | .call callee _ => some callee
    | _ => none

/-- Register the nodes named in `queue`, and all they call in turn, that are not yet
`visited`; at most `fuel` names are taken from the queue. -/
def registerCalled (p : Project) : Nat → List String → List String → Coverage → Coverage
  | 0, _, _, c | _ + 1, _, [], c => c
  | fuel + 1, visited, name :: queue, c =>
    if visited.contains name then registerCalled p fuel visited queue c
    else
      match p.findNode name with
      | none => registerCalled p fuel (name :: visited) queue c
      | some n =>
        let called := (n.equations.flatMap fun eq => calleeNames eq.rhs).filter fun x =>
          !(name :: visited).contains x
        registerCalled p fuel (name :: visited)
          (queue ++ (called.filterMap p.findNode).map (·.name)) (c.registerNode n)

/-- As many names as can come into the queue: the first, and one for each call. -/
def registerFuel (p : Project) : Nat :=
  1 + (p.allNodes.map fun n => (n.equations.flatMap fun eq => calleeNames eq.rhs).length).sum

/-- The sites of a node and of all it calls in turn. -/
def enableCoverage (p : Project) (root : NodeDef) : Coverage :=
  registerCalled p (registerFuel p) [] [root.name] {}

abbrev CovM := Stateful Fault (Calls × Coverage)

/-- How a call is made while coverage is recorded. -/
structure CovCallees where
  stepInstance : Site → NodeDef → List Value → Env → CovM Value
  callFunctionValues : NodeDef → List Value → Env → CovM Value

/-- The two ways an expression is evaluated while coverage is recorded: to its value,
and as a decision, to its outcome and the values of its atomic conditions. -/
structure Evaluation where
  value : CovM Value
  decision : CovM (Bool × Observations)

namespace Evaluation

/-- As a decision, an expression without connectives is one condition. -/
def atomic (site : Site) (value : CovM Value) : Evaluation where
  value := value
  decision := do
    let v ← value
    match v.asBool with
    | some b => pure (b, [(site, b)])
    | none => .lift (error (.decisionNotBool v))

/-- Both operands of a connective are always evaluated. -/
def connected (f : Bool → Bool → Bool) (lhs rhs : Evaluation) (value : CovM Value) :
    Evaluation where
  value := value
  decision := do
    let (l, obsL) ← lhs.decision
    let (r, obsR) ← rhs.decision
    pure (f l r, obsL ++ obsR)

def negated (arg : Evaluation) (value : CovM Value) : Evaluation where
  value := value
  decision := do
    let (b, obs) ← arg.decision
    pure (!b, obs)

end Evaluation

section

variable (m : Machine) (p : Project) (cs : Callees) (ccs : CovCallees) (fr : Frame)

/-- The calls of the branch not taken are stepped without recording. -/
def stepUntakenCov (site : Site) (other : Expr) : CovM Unit :=
  .unrecorded (stepUntaken other (eval m p cs fr site other))

def mapCov (f : NodeDef) : List (List Value) → CovM (List Value)
  | [] => pure []
  | row :: rows => do
    let v ← ccs.callFunctionValues f row (constantsFromEnv p fr.env)
    let vs ← mapCov f rows
    pure (v :: vs)

def foldCov (f : NodeDef) (acc : Value) : List Value → CovM Value
  | [] => pure acc
  | elem :: elems => do
    let acc ← ccs.callFunctionValues f [acc, elem] (constantsFromEnv p fr.env)
    foldCov f acc elems

mutual

/-- Evaluation with coverage on.  The condition of an `if` is evaluated as a
decision, and its trial recorded. -/
def evaluation (site : Site) : Expr → Evaluation
  | .const lit => .atomic site (pure (literal lit))
  | .var name => .atomic site (.lift (variableValue p fr name))
  | .unary op arg =>
    let a := evaluation (site.child 0) arg
    let value := do
      let v ← a.value
      .lift (evalUnary m op v)
    match op with
    | .not => .negated a value
    | .neg => .atomic site value
  | .binary op lhs rhs =>
    let l := evaluation (site.child 0) lhs
    let r := evaluation (site.child 1) rhs
    let value := do
      let a ← l.value
      let b ← r.value
      .lift (evalBinary m op a b)
    match connective op with
    | some f => .connected f l r value
    | none => .atomic site value
  | .ifThenElse cond thenBranch elseBranch => .atomic site do
    let (outcome, obs) ← (evaluation (site.child 0) cond).decision
    .modifyRecord fun c => (c.mark (site.child 0) outcome).recordTrial (site.child 0) obs outcome
    if outcome then
      let v ← (evaluation (site.child 1) thenBranch).value
      stepUntakenCov m p cs fr (site.child 2) elseBranch
      pure (commonReal p fr.env v elseBranch)
    else
      let v ← (evaluation (site.child 2) elseBranch).value
      stepUntakenCov m p cs fr (site.child 1) thenBranch
      pure (commonReal p fr.env v thenBranch)
  | .pre arg => .atomic site (.lift (preValue fr site arg))
  | .arrow init body => .atomic site <|
    if firstTick fr site then do
      let v ← (evaluation (site.child 0) init).value
      stepUntakenCov m p cs fr (site.child 1) body
      pure (commonReal p fr.env v body)
    else do
      let v ← (evaluation (site.child 1) body).value
      stepUntakenCov m p cs fr (site.child 0) init
      pure (commonReal p fr.env v init)
  | .when arg _ _ => .atomic site (evaluation (site.child 0) arg).value
  | .merge clock onTrue onFalse => .atomic site <|
    match fr.env clock with
    | some (.bool true) => do
      let v ← (evaluation (site.child 0) onTrue).value
      pure (commonReal p fr.env v onFalse)
    | some (.bool false) => do
      let v ← (evaluation (site.child 1) onFalse).value
      pure (commonReal p fr.env v onTrue)
    | some other => .lift (error (.mergeClockNotBool clock other))
    | none => .lift (error (.mergeClockMissing clock))
  | .cast target arg => .atomic site do
    let v ← (evaluation (site.child 0) arg).value
    .lift (castValue target v)
  | .call node args => .atomic site <|
    if node = condact ∧ (p.findNode node).isNone then
      match args with
      | clock :: call :: defaults => do
        let c ← (evaluation (site.child 0) clock).value
        if ← .lift (asBool c fun _ => .condactClock) then
          let v ← (evaluation (site.child 1) call).value
          .unrecorded (setLastOutputs site v)
          pure v
        else
          match lastOutputs site (← .unrecorded .get) with
          | some v => pure v
          | none => do
            match ← evaluationList site 2 defaults with
            | [v] => pure v
            | vs => pure (.tuple vs)
      | _ => .lift (error .condactArity)
    else do
      let n ← .lift (callee p node args.length)
      let vs ← evaluationList site 0 args
      ccs.stepInstance site n vs fr.env
  | .field base field => .atomic site do
    let v ← (evaluation (site.child 0) base).value
    .lift (fieldOf field v)
  | .index base index => .atomic site do
    let b ← (evaluation (site.child 0) base).value
    let i ← (evaluation (site.child 1) index).value
    .lift (indexOf b i)
  | .tuple items => .atomic site do
    let vs ← evaluationList site 0 items
    pure (.tuple vs)
  | .array items => .atomic site do
    let vs ← evaluationList site 0 items
    pure (.array vs)
  | .struct _ fields => .atomic site do
    let m ← evaluationFields site 0 [] fields
    pure (.record m)
  | .iterate kind node init arrays => .atomic site do
    let f ← .lift (iterated p node)
    let arrs ← evaluationArrays site (if init.isSome then 1 else 0) arrays
    let rows ← .lift (transpose arrs)
    match kind with
    | .map => do
      let out ← mapCov p ccs fr f rows
      pure (.array out)
    | .fold =>
      match init with
      | none => .lift (error .foldWithoutSeed)
      | some seed => do
        let acc ← (evaluation (site.child 0) seed).value
        match arrs with
        | [] => .fail (.panic .emptyFold)
        | elems :: _ => foldCov p ccs fr f acc elems

def evaluationList (site : Site) (k : Nat) : List Expr → CovM (List Value)
  | [] => pure []
  | e :: es => do
    let v ← (evaluation (site.child k) e).value
    let vs ← evaluationList site (k + 1) es
    pure (v :: vs)

def evaluationFields (site : Site) (k : Nat) (m : List (String × Value)) :
    List (String × Expr) → CovM (List (String × Value))
  | [] => pure m
  | (f, e) :: fields => do
    let v ← (evaluation (site.child k) e).value
    evaluationFields site (k + 1) (insertField f v m) fields

def evaluationArrays (site : Site) (k : Nat) : List Expr → CovM (List (List Value))
  | [] => pure []
  | e :: es => do
    let v ← (evaluation (site.child k) e).value
    let xs ← .lift (asArray v)
    let xss ← evaluationArrays site (k + 1) es
    pure (xs :: xss)

end

/-- An expression's value with coverage on. -/
def evalCov (site : Site) (e : Expr) : CovM Value := (evaluation m p cs ccs fr site e).value

/-- A decision's outcome, with the values of its atomic conditions. -/
def evalDecision (site : Site) (e : Expr) : CovM (Bool × Observations) :=
  (evaluation m p cs ccs fr site e).decision

/-- The right-hand side of an equation, recorded as a trial when it is a registered
decision. -/
def evalEqRhs (site : Site) (rhs : Expr) : CovM Value := do
  let c ← .record
  if c.isRoot site then
    let (outcome, obs) ← evalDecision m p cs ccs fr site rhs
    .modifyRecord fun c => c.recordTrial site obs outcome
    pure (.bool outcome)
  else evalCov m p cs ccs fr site rhs

end

section

variable (m : Machine) (p : Project)

def equationStepCov (cs : Callees) (ccs : CovCallees) (n : NodeDef) (info : ClockInfo)
    (state : State) (env : Env) (i : Nat) : CovM Env :=
  match n.equations[i]? with
  | none => pure env
  | some eq => do
    if ← .lift (isActive info i env) then
      let v ← evalEqRhs m p cs ccs ⟨env, state, info.siteClocks⟩ ⟨n.name, i, []⟩ eq.rhs
      .lift (bindLhs m p n eq env v)
    else pure env

def equationStepsCov (cs : Callees) (ccs : CovCallees) (n : NodeDef) (info : ClockInfo)
    (state : State) : List Nat → Env → CovM Env
  | [], env => pure env
  | i :: order, env => do
    let env ← equationStepCov m p cs ccs n info state env i
    equationStepsCov cs ccs n info state order env

def stepOperatorCov (cs : Callees) (ccs : CovCallees) (key : Site) (n : NodeDef)
    (order : List Nat) (env : Env) : CovM Value := do
  let calls ← .unrecorded .get
  let state := (calls key).getD .initial
  .unrecorded (.set (calls.set key none))
  let info := clocksOf n
  let (env, childCalls) ← .withinRecord state.childCalls
    (equationStepsCov m p cs ccs n info state order (reseed n state.prev env))
  let ((), ticks) ← .unrecorded (.within state.clockTicks (tickChains env info.chains))
  .unrecorded (.set (calls.set key (some (state.next env ticks childCalls))))
  pure (extractOutput n env)

def stepInstanceCov (cs : Callees) (ccs : CovCallees) (key : Site) (n : NodeDef)
    (args : List Value) (consts : Env) : CovM Value := do
  let env ← .lift (calleeEnv m p n args consts)
  let order ← .lift (bodyOrder n)
  match n.kind with
  | .function => do
    let env ← equationStepsCov m p cs ccs n (clocksOf n) .initial order env
    pure (extractOutput n env)
  | .operator => stepOperatorCov m p cs ccs key n order env
  | .imported => .fail (.panic .unreachable)

def callFunctionValuesCov (cs : Callees) (ccs : CovCallees) (n : NodeDef) (args : List Value)
    (consts : Env) : CovM Value := do
  if args.length ≠ n.inputs.length then
    .lift (error (.iteratedArity n.name n.inputs.length args.length))
  let env ← .lift (calleeEnv m p n args consts)
  let order ← .lift (bodyOrder n)
  let (env, _) ← .withinRecord Calls.empty
    (equationStepsCov m p cs ccs n {} .initial order env)
  pure (extractOutput n env)

def covCallees : Nat → CovCallees
  | 0 => ⟨fun _ _ _ _ => .fail (.panic .stackOverflow), fun _ _ _ => .fail (.panic .stackOverflow)⟩
  | depth + 1 =>
    ⟨stepInstanceCov m p (callees m p depth) (covCallees depth),
      callFunctionValuesCov m p (callees m p depth) (covCallees depth)⟩

namespace Sim

/-- One cycle with coverage on. -/
def stepEnvCov (inputs : Env) : Stateful Fault (Sim × Coverage) Env := fun (sim, c) =>
  match sim.seed m p inputs with
  | .error e => (.error e, sim, c)
  | .ok env =>
    match equationStepsCov m p (callees m p m.stack) (covCallees m p m.stack) sim.node
      sim.clockInfo sim.state sim.eqOrder env (sim.callStates, c) with
    | (.error e, calls, c) => (.error e, { sim with callStates := calls }, c)
    | (.ok env, calls, c) =>
      match tickChains env sim.clockInfo.chains sim.state.clockTicks with
      | (.error e, ticks) =>
        (.error e,
          { sim with callStates := calls, state := { sim.state with clockTicks := ticks } }, c)
      | (.ok (), ticks) =>
        (.ok env,
          { sim with callStates := calls, state := sim.state.next env ticks sim.state.childCalls },
          c)

def stepCov (inputs : Env) : Stateful Fault (Sim × Coverage) (List (String × Value)) := do
  let env ← stepEnvCov m p inputs
  let sim ← .unrecorded .get
  .lift (outputs m p sim.node env)

end Sim

end

end OpenLustre.Simulator
