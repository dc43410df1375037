import OpenLustre.Lib.Performing
import OpenLustre.Sim.Schedule

/-! How often the instances of a node run: what it means that each operator call of a
node runs its instance once in a cycle, and where the simulator gets there. -/

namespace OpenLustre.Simulator

open OpenLustre.Ir

/-- The call sites of an expression, each with the node that it steps, or without one
where a `condact` decides what runs there. -/
abbrev Instances := List (Site × Option NodeDef)

/-- Some operator is called whatever is decided. -/
def Instances.Call (l : Instances) : Prop := ∃ c ∈ l, c.2.isSome

section

variable (p : Project)

def isCondact (node : String) : Bool := decide (node = condact) && (p.findNode node).isNone

/-- The instance of a call to an operator. -/
def operatorCall (site : Site) (node : String) : Instances :=
  match p.findNode node with
  | some n => if n.kind = .operator then [(site, some n)] else []
  | none => []

mutual

def operatorCalls (site : Site) : Expr → Instances
  | .const _ | .var _ => []
  | .unary _ arg | .pre arg | .cast _ arg | .when arg _ _ | .field arg _ =>
    operatorCalls (site.child 0) arg
  | .binary _ lhs rhs | .arrow lhs rhs | .index lhs rhs | .merge _ lhs rhs =>
    operatorCalls (site.child 0) lhs ++ operatorCalls (site.child 1) rhs
  | .ifThenElse c t e =>
    operatorCalls (site.child 0) c ++ (operatorCalls (site.child 1) t ++ operatorCalls (site.child 2) e)
  | .call node args =>
    if isCondact p node then (site, none) :: condactCalls site args
    else operatorCall p site node ++ operatorCallsList site 0 args
  | .tuple items | .array items => operatorCallsList site 0 items
  | .struct _ fields => operatorCallsFields site 0 fields
  | .iterate _ _ none arrays => operatorCallsList site 0 arrays
  | .iterate _ _ (some init) arrays =>
    operatorCalls (site.child 0) init ++ operatorCallsList site 1 arrays

/-- The condition is evaluated always, the call and the defaults as it decides. -/
def condactCalls (site : Site) : List Expr → Instances
  | [] => []
  | clock :: rest =>
    operatorCalls (site.child 0) clock ++ (site.subtermsList 1 rest).map fun (s, _) => (s, none)

def operatorCallsList (site : Site) (k : Nat) : List Expr → Instances
  | [] => []
  | e :: es => operatorCalls (site.child k) e ++ operatorCallsList site (k + 1) es

def operatorCallsFields (site : Site) (k : Nat) : List (String × Expr) → Instances
  | [] => []
  | (_, e) :: fields => operatorCalls (site.child k) e ++ operatorCallsFields site (k + 1) fields

end

def equationCalls (n : NodeDef) (i : Nat) : Instances :=
  ((n.equations[i]?).map fun eq => operatorCalls p ⟨n.name, i, []⟩ eq.rhs).getD []

/-- The clock of equation `i` is active on these values. -/
def ActiveOn (n : NodeDef) (i : Nat) (env : Env) : Prop := isActive (clocksOf n) i env = .ok true

/-- One cycle of an instance: its operator calls in equations on an active clock have
each run one cycle, and the others none. -/
inductive Ticked : NodeDef → State → State → Prop
  | intro {n : NodeDef} {s s' : State} (cycle : s'.cycle = s.cycle + 1)
    (present : ∀ i, ActiveOn n i s'.prev → ∀ site callee,
      (site, some callee) ∈ equationCalls p n i → (s'.childCalls site).isSome)
    (active : ∀ i, ActiveOn n i s'.prev → ∀ site callee,
      (site, some callee) ∈ equationCalls p n i → ∀ t', s'.childCalls site = some t' →
        Ticked callee ((s.childCalls site).getD .initial) t')
    (inactive : ∀ i, ¬ ActiveOn n i s'.prev → ∀ c ∈ equationCalls p n i,
      s'.childCalls c.1 = s.childCalls c.1) : Ticked n s s'

/-- The instance at a call site runs one cycle, or what a `condact` decides happens
there, and at no other site. -/
def Tick : Site × Option NodeDef → Calls → Calls → Prop
  | (site, some n), calls, calls' =>
    ∃ t', calls' = calls.set site (some t') ∧ Ticked p n ((calls site).getD .initial) t'
  | (site, none), calls, calls' => ∀ s, s ≠ site → calls' s = calls s

end

/-- First `x`, which leaves what it does not get to, and then what is left. -/
def inTurn {α : Type} (x : EvalM α) (finishes : Calls → Prop) (left : Instances)
    (rest : Calls → Prop) (calls : Calls) : Prop :=
  finishes calls ∧ x.Then left.Call (fun _ => rest) calls

/-- Where the instance of a call site, stepped on arguments, finishes all calls of its own. -/
abbrev FinishesCallees := Site → NodeDef → List Value → Env → Calls → Prop

section

variable (m : Machine) (p : Project) (cs : Callees) (fin : FinishesCallees) (fr : Frame)

mutual

/-- An evaluation that fails only where no operator call is left to step, the sides
included that are evaluated for their state. -/
def Finishes (site : Site) : Expr → Calls → Prop
  | .const _ | .var _ => fun _ => True
  | .unary _ arg | .cast _ arg | .when arg _ _ | .field arg _ => Finishes (site.child 0) arg
  | .binary _ lhs rhs | .index lhs rhs =>
    inTurn (eval m p cs fr (site.child 0) lhs) (Finishes (site.child 0) lhs)
      (operatorCalls p (site.child 1) rhs) (Finishes (site.child 1) rhs)
  | .ifThenElse cond thenBranch elseBranch => fun calls =>
    Finishes (site.child 0) cond calls ∧
      (eval m p cs fr (site.child 0) cond).Then
        (operatorCalls p (site.child 1) thenBranch ++ operatorCalls p (site.child 2) elseBranch).Call
        (fun c =>
          match c with
          | .bool true =>
            inTurn (eval m p cs fr (site.child 1) thenBranch) (Finishes (site.child 1) thenBranch)
              (operatorCalls p (site.child 2) elseBranch) (Finishes (site.child 2) elseBranch)
          | .bool false =>
            inTurn (eval m p cs fr (site.child 2) elseBranch) (Finishes (site.child 2) elseBranch)
              (operatorCalls p (site.child 1) thenBranch) (Finishes (site.child 1) thenBranch)
          | _ => fun _ => ¬ (operatorCalls p (site.child 1) thenBranch ++
              operatorCalls p (site.child 2) elseBranch).Call)
        calls
  -- The argument of a `pre` is not evaluated.
  | .pre arg => fun _ => ¬ (operatorCalls p (site.child 0) arg).Call
  | .arrow init body =>
    if firstTick fr site then
      inTurn (eval m p cs fr (site.child 0) init) (Finishes (site.child 0) init)
        (operatorCalls p (site.child 1) body) (Finishes (site.child 1) body)
    else
      inTurn (eval m p cs fr (site.child 1) body) (Finishes (site.child 1) body)
        (operatorCalls p (site.child 0) init) (Finishes (site.child 0) init)
  -- Only one arm of a `merge` is evaluated.
  | .merge clock onTrue onFalse => fun calls =>
    match fr.env clock with
    | some (.bool true) =>
      Finishes (site.child 0) onTrue calls ∧ ¬ (operatorCalls p (site.child 1) onFalse).Call
    | some (.bool false) =>
      Finishes (site.child 1) onFalse calls ∧ ¬ (operatorCalls p (site.child 0) onTrue).Call
    | _ => ¬ (operatorCalls p (site.child 0) onTrue ++ operatorCalls p (site.child 1) onFalse).Call
  | .call node args =>
    if isCondact p node then FinishesCondact site args
    else fun calls =>
      match callee p node args.length with
      | .error _ => ¬ (operatorCalls p site (.call node args)).Call
      | .ok n =>
        FinishesList site 0 args calls ∧
          (evalList m p cs fr site 0 args).Then (n.kind = .operator) (fun vs calls =>
            n.kind = .operator → fin site n vs fr.env calls ∧
              ∃ v calls', cs.stepInstance site n vs fr.env calls = (.ok v, calls')) calls
  | .tuple items | .array items => FinishesList site 0 items
  | .struct _ fields => FinishesFields site 0 fields
  | .iterate _ node none arrays => fun calls =>
    match iterated p node with
    | .error _ => ¬ (operatorCallsList p site 0 arrays).Call
    | .ok _ => FinishesArrays site 0 arrays calls
  | .iterate kind node (some init) arrays => fun calls =>
    match iterated p node with
    | .error _ => ¬ (operatorCalls p (site.child 0) init ++ operatorCallsList p site 1 arrays).Call
    | .ok _ =>
      FinishesArrays site 1 arrays calls ∧
        (evalArrays m p cs fr site 1 arrays).Then (operatorCalls p (site.child 0) init).Call
          (fun arrs calls =>
            match kind, transpose arrs with
            | .fold, .ok _ => Finishes (site.child 0) init calls
            | _, _ => ¬ (operatorCalls p (site.child 0) init).Call)
          calls

/-- The call of a `condact` finishes where its condition holds. -/
def FinishesCondact (site : Site) : List Expr → Calls → Prop
  | clock :: call :: _ => fun calls =>
    Finishes (site.child 0) clock calls ∧
      (eval m p cs fr (site.child 0) clock).Then False (fun v calls =>
        v = .bool true → Finishes (site.child 1) call calls) calls
  | args => fun _ => ¬ (condactCalls p site args).Call

def FinishesList (site : Site) (k : Nat) : List Expr → Calls → Prop
  | [] => fun _ => True
  | e :: es =>
    inTurn (eval m p cs fr (site.child k) e) (Finishes (site.child k) e)
      (operatorCallsList p site (k + 1) es) (FinishesList site (k + 1) es)

def FinishesFields (site : Site) (k : Nat) : List (String × Expr) → Calls → Prop
  | [] => fun _ => True
  | (_, e) :: fields =>
    inTurn (eval m p cs fr (site.child k) e) (Finishes (site.child k) e)
      (operatorCallsFields p site (k + 1) fields) (FinishesFields site (k + 1) fields)

def FinishesArrays (site : Site) (k : Nat) : List Expr → Calls → Prop
  | [] => fun _ => True
  | e :: es =>
    inTurn (do
        let v ← eval m p cs fr (site.child k) e
        .lift (asArray v))
      (Finishes (site.child k) e) (operatorCallsList p site (k + 1) es)
      (FinishesArrays site (k + 1) es)

end

end

section

variable (m : Machine) (p : Project)

/-- Every active equation of the order finishes. -/
def FinishesSteps (cs : Callees) (fin : FinishesCallees) (n : NodeDef) (info : ClockInfo)
    (state : State) : List Nat → Env → Calls → Prop
  | [], _, _ => True
  | i :: order, env, calls =>
    (∀ eq, n.equations[i]? = some eq → isActive info i env = .ok true →
      Finishes m p cs fin ⟨env, state, info.siteClocks⟩ ⟨n.name, i, []⟩ eq.rhs calls) ∧
    ∀ env' calls', equationStep m p cs n info state env i calls = (.ok env', calls') →
      FinishesSteps cs fin n info state order env' calls'

/-- The body of an operator finishes on evaluated arguments. -/
def FinishesInstance (cs : Callees) (fin : FinishesCallees) : FinishesCallees :=
  fun key n args consts calls =>
    ∀ env order, calleeEnv m p n args consts = .ok env → bodyOrder n = .ok order →
      let state := (calls key).getD .initial
      FinishesSteps m p cs fin n (clocksOf n) state order (reseed n state.prev env) state.childCalls

def finishesCallees : Nat → FinishesCallees
  | 0 => fun _ _ _ _ _ => True
  | depth + 1 => FinishesInstance m p (callees m p depth) (finishesCallees depth)

/-- All active equations of a simulator's cycle finish. -/
def Sim.Finishes (sim : Sim) (inputs : Env) : Prop :=
  ∀ env, sim.seed m p inputs = .ok env →
    FinishesSteps m p (callees m p m.stack) (finishesCallees m p m.stack) sim.node sim.clockInfo
      sim.state sim.eqOrder env sim.callStates

end

/-- The equations that call operators run after the equations of their clock variables. -/
def CallsAfterClocks (p : Project) (n : NodeDef) : Prop :=
  ∀ order, evaluationOrder n = .ok order → ∀ i, equationCalls p n i ≠ [] →
    ∀ x ∈ n.clockReads i, ∀ j, x ∈ n.defines j → Dependency.Before order j i

/-- No function calls an operator. -/
def FunctionsStateless (p : Project) : Prop :=
  ∀ n ∈ p.allNodes, n.kind = .function → ∀ i, equationCalls p n i = []

end OpenLustre.Simulator
