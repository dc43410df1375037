import OpenLustre.Ir.Clocks
import OpenLustre.Lib.Stateful
import OpenLustre.Sim.Value

/-! Evaluation of expressions.  An evaluation reads its environment and the
state of the instance it runs in, and steps the instances of its call sites. -/

namespace OpenLustre.Simulator

open OpenLustre.Ir

abbrev Env := String → Option Value

def Env.set (env : Env) (name : String) (v : Value) : Env :=
  fun x => if x = name then some v else env x

/-- The state of one node instance, with those of the calls in its body. -/
structure State where
  cycle : Nat
  prev : String → Option Value
  clockTicks : String → Nat
  childCalls : Site → Option State

def State.initial : State where
  cycle := 0
  prev := fun _ => none
  clockTicks := fun _ => 0
  childCalls := fun _ => none

abbrev Calls := Site → Option State

def Calls.empty : Calls := fun _ => none

def Calls.set (calls : Calls) (key : Site) (state : Option State) : Calls :=
  fun site => if site = key then state else calls site

abbrev EvalM := Stateful Fault Calls

def error {α : Type} (e : EvalError) : Except Fault α := .error (.error e)

/-- What an expression is evaluated in. -/
structure Frame where
  env : Env
  state : State
  siteClocks : List (Site × Clock)

/-- How a call is made: a cycle of the instance at a call site, which is given the
environment its constants are taken from, and one application of a function. -/
structure Callees where
  stepInstance : Site → NodeDef → List Value → Env → EvalM Value
  callFunctionValues : NodeDef → List Value → Env → Except Fault Value

def condact : String := "condact"

inductive Real
  | single
  | double
  deriving DecidableEq, Repr

def Real.ofTy : Ty → Option Real
  | .float32 => some .single
  | .float64 => some .double
  | _ => none

def Real.join : Option Real → Option Real → Option Real
  | some .double, _ | _, some .double => some .double
  | some .single, _ | _, some .single => some .single
  | none, none => none

/-- The C real type an expression has in the generated code, when known. -/
def realKind (p : Project) (env : Env) : Expr → Option Real
  | .const (.float _) => some .double
  | .var name =>
    match env name with
    | some (.float32 _) => some .single
    | some (.float _) => some .double
    | _ => none
  | .unary _ arg | .pre arg | .when arg _ _ => realKind p env arg
  | .binary op lhs rhs =>
    match op with
    | .add | .sub | .mul | .div => Real.join (realKind p env lhs) (realKind p env rhs)
    | _ => none
  | .ifThenElse _ a b | .arrow a b | .merge _ a b => Real.join (realKind p env a) (realKind p env b)
  | .cast target _ => Real.ofTy target
  | .call node _ => ((p.findNode node).bind (·.outputs.head?)).bind fun port => Real.ofTy port.ty
  | _ => none

/-- The value of a taken branch at the conditional's C type. -/
def commonReal (p : Project) (env : Env) (v : Value) (other : Expr) : Value :=
  match v with
  | .float32 x => if realKind p env other = some .double then .float (x.convert _) else .float32 x
  | v => v

/-- Whether a `pre` or `->` site is on its first tick. -/
def firstTick (fr : Frame) (site : Site) : Bool :=
  match fr.siteClocks.lookup site with
  | none | some .base => decide (fr.state.cycle = 0)
  | some ck => decide (fr.state.clockTicks ck.key = 0)

/-- True on the cycles where every condition along the chain holds. -/
def clockActiveOn (env : Env) : List (String × Bool) → Except Fault Bool
  | [] => .ok true
  | (var, on) :: rest =>
    match env var with
    | some (.bool b) => if b ≠ on then .ok false else clockActiveOn env rest
    | some other => .error (.error (.clockNotBool var other))
    | none => .error (.error (.clockMissing var))

def clockActive (ck : Clock) (env : Env) : Except Fault Bool := clockActiveOn env ck.conditions

/-- The constants a function applied by an iterator sees. -/
def constantsFromEnv (p : Project) (env : Env) : Env :=
  fun name => if p.isConstant name then env name else none

/-- Run a computation for its effect on the instances; its value and errors are
discarded, a panic is not. -/
def discard (x : EvalM Value) : EvalM Unit := fun calls =>
  match x calls with
  | (.error (.panic e), calls') => (.error (.panic e), calls')
  | (_, calls') => (.ok (), calls')

/-- Step the calls in the branch not taken, so that their instances stay in step. -/
def stepUntaken (other : Expr) (x : EvalM Value) : EvalM Unit :=
  if other.hasCall then discard x else pure ()

def asBool (v : Value) (e : Value → EvalError) : Except Fault Bool :=
  match v with
  | .bool b => .ok b
  | v => error (e v)

/-- The last outputs of a conditional activation. -/
def lastOutputs (site : Site) (calls : Calls) : Option Value :=
  (calls site).bind (·.prev "")

def setLastOutputs (site : Site) (v : Value) : EvalM Unit := fun calls =>
  let state := (calls site).getD .initial
  (.ok (), calls.set site (some { state with prev := Env.set state.prev "" v }))

/-- The node a call steps, when the call is well formed. -/
def callee (p : Project) (node : String) (args : Nat) : Except Fault NodeDef :=
  match p.findNode node with
  | none => .error (.error (.unknownCallee node))
  | some n =>
    if args ≠ n.inputs.length then .error (.error (.callArity node n.inputs.length args))
    else if n.isImported then .error (.error (.importedCall node))
    else .ok n

/-- The body of `n` applies `c`. -/
def NodeCalls (p : Project) (n c : NodeDef) : Prop :=
  ∃ eq ∈ n.equations, ∃ f ∈ eq.rhs.applied, p.findNode f = some c

def iterated (p : Project) (node : String) : Except Fault NodeDef :=
  match p.findNode node with
  | none => .error (.error (.iteratorUnknown node))
  | some n => if n.isFunction then .ok n else .error (.error (.iteratorNotFunction node))

/-- The element-wise arguments of an iterated call. -/
def transpose (arrays : List (List Value)) : Except Fault (List (List Value)) :=
  let n := (arrays.head?.map (·.length)).getD 0
  if arrays.any (fun a => decide (a.length ≠ n)) then .error (.error .iteratorLengths)
  else .ok ((List.range n).map fun k => arrays.filterMap (·[k]?))

/-- Evaluate an array operand to its elements. -/
def asArray : Value → Except Fault (List Value)
  | .array xs => .ok xs
  | v => error (.iteratorOperand v)

def fieldOf (name : String) : Value → Except Fault Value
  | .record m =>
    match m.lookup name with
    | some v => .ok v
    | none => error (.missingField name)
  | v => error (.notStruct name v)

def indexOf (base index : Value) : Except Fault Value :=
  match index with
  | .int i =>
    match base with
    | .array xs =>
      if i < 0 then error (.indexOutOfBounds i xs.length)
      else
        match xs[i.toNat]? with
        | some v => .ok v
        | none => error (.indexOutOfBounds i xs.length)
    | v => error (.indexNotArray v)
  | v => error (.indexNotInt v)

/-- The value of a literal; a char is carried as an integer byte. -/
def literal : Literal → Value
  | .bool b => .bool b
  | .int i => .int i
  | .float x => .float x
  | .char c => .int c.toNat

section

variable (m : Machine) (p : Project) (cs : Callees) (fr : Frame)

def variableValue (name : String) : Except Fault Value :=
  match fr.env name with
  | some v => .ok v
  | none =>
    match enumVariantValue p name with
    | some v => .ok v
    | none => error (.unbound name)

/-- `pre` reads the previous cycle's snapshot: a clocked variable holds its value
through inactive cycles, so the snapshot is its value at the last tick. -/
def preValue (site : Site) (arg : Expr) : Except Fault Value :=
  if firstTick fr site then error .uninitializedPre
  else
    match arg with
    | .var name =>
      match fr.state.prev name with
      | some v => .ok v
      | none => error (.noPrevious name)
    | _ => error .complexPre

/-- The left fold of an iterated function over the elements. -/
def foldFunction (f : NodeDef) (acc : Value) (elems : List Value) : Except Fault Value :=
  elems.foldlM (fun acc elem => cs.callFunctionValues f [acc, elem] (constantsFromEnv p fr.env)) acc

mutual

def eval (site : Site) : Expr → EvalM Value
  | .const lit => pure (literal lit)
  | .var name => .lift (variableValue p fr name)
  | .unary op arg => do
    let v ← eval (site.child 0) arg
    .lift (evalUnary m op v)
  | .binary op lhs rhs => do
    let l ← eval (site.child 0) lhs
    let r ← eval (site.child 1) rhs
    .lift (evalBinary m op l r)
  | .ifThenElse cond thenBranch elseBranch => do
    let c ← eval (site.child 0) cond
    if ← .lift (asBool c .conditionNotBool) then
      let v ← eval (site.child 1) thenBranch
      stepUntaken elseBranch (eval (site.child 2) elseBranch)
      pure (commonReal p fr.env v elseBranch)
    else
      let v ← eval (site.child 2) elseBranch
      stepUntaken thenBranch (eval (site.child 1) thenBranch)
      pure (commonReal p fr.env v thenBranch)
  | .pre arg => .lift (preValue fr site arg)
  | .arrow init body =>
    if firstTick fr site then do
      let v ← eval (site.child 0) init
      stepUntaken body (eval (site.child 1) body)
      pure (commonReal p fr.env v body)
    else do
      let v ← eval (site.child 1) body
      stepUntaken init (eval (site.child 0) init)
      pure (commonReal p fr.env v init)
  -- A `when` is only reached on cycles where its condition holds.
  | .when arg _ _ => eval (site.child 0) arg
  | .merge clock onTrue onFalse =>
    match fr.env clock with
    | some (.bool true) => do
      let v ← eval (site.child 0) onTrue
      pure (commonReal p fr.env v onFalse)
    | some (.bool false) => do
      let v ← eval (site.child 1) onFalse
      pure (commonReal p fr.env v onTrue)
    | some other => .lift (error (.mergeClockNotBool clock other))
    | none => .lift (error (.mergeClockMissing clock))
  | .cast target arg => do
    let v ← eval (site.child 0) arg
    .lift (castValue target v)
  | .call node args =>
    if node = condact ∧ (p.findNode node).isNone then
      match args with
      | clock :: call :: defaults => do
        let c ← eval (site.child 0) clock
        if ← .lift (asBool c fun _ => .condactClock) then
          let v ← eval (site.child 1) call
          setLastOutputs site v
          pure v
        else
          match lastOutputs site (← .get) with
          | some v => pure v
          | none => do
            match ← evalList site 2 defaults with
            | [v] => pure v
            | vs => pure (.tuple vs)
      | _ => .lift (error .condactArity)
    else do
      let n ← .lift (callee p node args.length)
      let vs ← evalList site 0 args
      cs.stepInstance site n vs fr.env
  | .field base field => do
    let v ← eval (site.child 0) base
    .lift (fieldOf field v)
  | .index base index => do
    let b ← eval (site.child 0) base
    let i ← eval (site.child 1) index
    .lift (indexOf b i)
  | .tuple items => do
    let vs ← evalList site 0 items
    pure (.tuple vs)
  | .array items => do
    let vs ← evalList site 0 items
    pure (.array vs)
  | .struct _ fields => do
    let m ← evalFields site 0 [] fields
    pure (.record m)
  | .iterate kind node init arrays => do
    let f ← .lift (iterated p node)
    let arrs ← evalArrays site (if init.isSome then 1 else 0) arrays
    let rows ← .lift (transpose arrs)
    match kind with
    | .map => do
      let out ← .lift (rows.mapM fun row =>
        cs.callFunctionValues f row (constantsFromEnv p fr.env))
      pure (.array out)
    | .fold =>
      match init with
      | none => .lift (error .foldWithoutSeed)
      | some seed => do
        let acc ← eval (site.child 0) seed
        match arrs with
        | [] => .fail (.panic .emptyFold)
        | elems :: _ => .lift (foldFunction p cs fr f acc elems)

def evalList (site : Site) (k : Nat) : List Expr → EvalM (List Value)
  | [] => pure []
  | e :: es => do
    let v ← eval (site.child k) e
    let vs ← evalList site (k + 1) es
    pure (v :: vs)

def evalFields (site : Site) (k : Nat) (m : List (String × Value)) :
    List (String × Expr) → EvalM (List (String × Value))
  | [] => pure m
  | (f, e) :: fields => do
    let v ← eval (site.child k) e
    evalFields site (k + 1) (insertField f v m) fields

def evalArrays (site : Site) (k : Nat) : List Expr → EvalM (List (List Value))
  | [] => pure []
  | e :: es => do
    let v ← eval (site.child k) e
    let xs ← .lift (asArray v)
    let xss ← evalArrays site (k + 1) es
    pure (xs :: xss)

end

/-- The outputs of a conditional activation whose condition does not hold. -/
def held (site : Site) (defaults : List Expr) : EvalM Value := do
  match lastOutputs site (← .get) with
  | some v => pure v
  | none => do
    match ← evalList m p cs fr site 2 defaults with
    | [v] => pure v
    | vs => pure (.tuple vs)

/-- The rest of a conditional activation, on the value of its condition. -/
def decided (site : Site) (call : Expr) (defaults : List Expr) (c : Value) : EvalM Value := do
  if ← .lift (asBool c fun _ => .condactClock) then
    let v ← eval m p cs fr (site.child 1) call
    setLastOutputs site v
    pure v
  else held m p cs fr site defaults

variable {m p cs fr}

theorem callee_eq_ok {f : String} {k : Nat} {c : NodeDef} (h : callee p f k = .ok c) :
    p.findNode f = some c ∧ k = c.inputs.length ∧ c.isImported = false := by
  unfold callee at h
  split at h
  case h_1 => simp at h
  case h_2 d hd =>
    split at h
    case isTrue => simp at h
    case isFalse hlen =>
      split at h
      case isTrue => simp at h
      case isFalse himp =>
        cases h
        exact ⟨hd, by simpa using hlen, by simpa using himp⟩

theorem iterated_eq_ok {f : String} {c : NodeDef} (h : iterated p f = .ok c) :
    p.findNode f = some c ∧ c.isFunction = true := by
  unfold iterated at h
  split at h
  case h_1 => cases h
  case h_2 d hd =>
    split at h
    case isTrue hfun =>
      cases h
      exact ⟨hd, hfun⟩
    case isFalse => cases h

theorem evalList_length {site : Site} {k : Nat} {es : List Expr} {vs : List Value}
    {calls calls' : Calls} (h : evalList m p cs fr site k es calls = (.ok vs, calls')) :
    vs.length = es.length := by
  induction es generalizing k vs calls with
  | nil =>
    cases h
    rfl
  | cons e es ih =>
    obtain ⟨v, calls₁, -, h⟩ := Stateful.bind_eq_ok.mp h
    obtain ⟨vs', calls₂, hvs, h⟩ := Stateful.bind_eq_ok.mp h
    cases h
    simp [ih hvs]

theorem eval_call {site : Site} {node : String} {args : List Expr}
    (h : ¬ (node = condact ∧ (p.findNode node).isNone)) :
    eval m p cs fr site (.call node args) = (do
      let n ← .lift (callee p node args.length)
      let vs ← evalList m p cs fr site 0 args
      cs.stepInstance site n vs fr.env) := by
  match args with
  | [] | [_] | _ :: _ :: _ => simp only [eval, if_neg h]

theorem eval_condact {site : Site} {node : String} {clock call : Expr} {defaults : List Expr}
    (h : node = condact ∧ (p.findNode node).isNone) :
    eval m p cs fr site (.call node (clock :: call :: defaults)) =
      eval m p cs fr (site.child 0) clock >>= decided m p cs fr site call defaults := by
  simp only [eval, if_pos h]
  rfl

theorem eval_condact_arity {site : Site} {node : String} {args : List Expr}
    (h : node = condact ∧ (p.findNode node).isNone) (hargs : args.length < 2) :
    eval m p cs fr site (.call node args) = .lift (error .condactArity) := by
  match args with
  | [] | [_] => simp only [eval, if_pos h]
  | _ :: _ :: rest => exact absurd hargs (Nat.not_lt.mpr (Nat.le_add_left 2 rest.length))

end

end OpenLustre.Simulator
