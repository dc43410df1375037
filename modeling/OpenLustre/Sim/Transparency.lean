import OpenLustre.Sim.Coverage
import OpenLustre.Typecheck.Check

/-! When recording coverage changes nothing.  With coverage on, a decision is
evaluated condition by condition, and a condition that is not a boolean is an error
of its own. -/

namespace OpenLustre.Simulator

open OpenLustre.Ir Stateful Transition

/-- The states from which evaluating an expression, to its value or as a decision,
meets an atomic condition whose value is not a boolean. -/
structure NonBoolean where
  value : Calls → Prop
  decision : Calls → Prop

namespace NonBoolean

def atomic (x : EvalM Value) (value : Calls → Prop) : NonBoolean where
  value := value
  decision := orAfter value x fun v _ => v.asBool = none

def connected (lhs rhs : NonBoolean) (x : EvalM Value) (value : Calls → Prop) : NonBoolean where
  value := value
  decision := orAfter lhs.decision x fun _ => rhs.decision

def negated (arg : NonBoolean) (value : Calls → Prop) : NonBoolean where
  value := value
  decision := arg.decision

end NonBoolean

/-- The calls in which such a condition is met. -/
structure NonBooleanCalls where
  stepInstance : Site → NodeDef → List Value → Env → Calls → Prop
  callFunctionValues : NodeDef → List Value → Env → Prop

section

variable (m : Machine) (p : Project) (cs : Callees) (ncs : NonBooleanCalls) (fr : Frame)

def mapMeets (f : NodeDef) : List (List Value) → Prop
  | [] => False
  | row :: rows =>
    ncs.callFunctionValues f row (constantsFromEnv p fr.env) ∨
      (∃ v, cs.callFunctionValues f row (constantsFromEnv p fr.env) = .ok v) ∧ mapMeets f rows

def foldMeets (f : NodeDef) (acc : Value) : List Value → Prop
  | [] => False
  | elem :: elems =>
    ncs.callFunctionValues f [acc, elem] (constantsFromEnv p fr.env) ∨
      ∃ v, cs.callFunctionValues f [acc, elem] (constantsFromEnv p fr.env) = .ok v ∧
        foldMeets f v elems

mutual

def nonBoolean (site : Site) : Expr → NonBoolean
  | .const lit => .atomic (eval m p cs fr site (.const lit)) fun _ => False
  | .var name => .atomic (eval m p cs fr site (.var name)) fun _ => False
  | .unary op arg =>
    let a := nonBoolean (site.child 0) arg
    match op with
    | .not => .negated a a.value
    | .neg => .atomic (eval m p cs fr site (.unary .neg arg)) a.value
  | .binary op lhs rhs =>
    let l := nonBoolean (site.child 0) lhs
    let r := nonBoolean (site.child 1) rhs
    let value := orAfter l.value (eval m p cs fr (site.child 0) lhs) fun _ => r.value
    match connective op with
    | some _ => .connected l r (eval m p cs fr (site.child 0) lhs) value
    | none => .atomic (eval m p cs fr site (.binary op lhs rhs)) value
  | .ifThenElse cond thenBranch elseBranch =>
    .atomic (eval m p cs fr site (.ifThenElse cond thenBranch elseBranch)) <|
      orAfter (nonBoolean (site.child 0) cond).decision (eval m p cs fr (site.child 0) cond)
        fun v calls => ∃ b, v = .bool b ∧
          if b then (nonBoolean (site.child 1) thenBranch).value calls
          else (nonBoolean (site.child 2) elseBranch).value calls
  | .pre arg => .atomic (eval m p cs fr site (.pre arg)) fun _ => False
  | .arrow init body =>
    .atomic (eval m p cs fr site (.arrow init body)) <|
      if firstTick fr site then (nonBoolean (site.child 0) init).value
      else (nonBoolean (site.child 1) body).value
  | .when arg clock on =>
    .atomic (eval m p cs fr site (.when arg clock on)) (nonBoolean (site.child 0) arg).value
  | .merge clock onTrue onFalse =>
    .atomic (eval m p cs fr site (.merge clock onTrue onFalse)) <|
      match fr.env clock with
      | some (.bool true) => (nonBoolean (site.child 0) onTrue).value
      | some (.bool false) => (nonBoolean (site.child 1) onFalse).value
      | _ => fun _ => False
  | .cast target arg =>
    .atomic (eval m p cs fr site (.cast target arg)) (nonBoolean (site.child 0) arg).value
  | .call node args =>
    .atomic (eval m p cs fr site (.call node args)) <|
      if node = condact ∧ (p.findNode node).isNone then
        match args with
        | clock :: call :: defaults =>
          orAfter (nonBoolean (site.child 0) clock).value (eval m p cs fr (site.child 0) clock)
            fun v calls => ∃ b, v = .bool b ∧
              if b then (nonBoolean (site.child 1) call).value calls
              else lastOutputs site calls = none ∧ nonBooleanList site 2 defaults calls
        | _ => fun _ => False
      else fun calls => ∃ n, callee p node args.length = .ok n ∧
        orAfter (nonBooleanList site 0 args) (evalList m p cs fr site 0 args)
          (fun vs => ncs.stepInstance site n vs fr.env) calls
  | .field base field =>
    .atomic (eval m p cs fr site (.field base field)) (nonBoolean (site.child 0) base).value
  | .index base index =>
    .atomic (eval m p cs fr site (.index base index)) <|
      orAfter (nonBoolean (site.child 0) base).value (eval m p cs fr (site.child 0) base)
        fun _ => (nonBoolean (site.child 1) index).value
  | .tuple items => .atomic (eval m p cs fr site (.tuple items)) (nonBooleanList site 0 items)
  | .array items => .atomic (eval m p cs fr site (.array items)) (nonBooleanList site 0 items)
  | .struct ty fields =>
    .atomic (eval m p cs fr site (.struct ty fields)) (nonBooleanFields site 0 fields)
  | .iterate kind node init arrays =>
    .atomic (eval m p cs fr site (.iterate kind node init arrays)) fun calls =>
      ∃ f, iterated p node = .ok f ∧
        orAfter (nonBooleanArrays site (if init.isSome then 1 else 0) arrays)
          (evalArrays m p cs fr site (if init.isSome then 1 else 0) arrays)
          (fun arrs calls => ∃ rows, transpose arrs = .ok rows ∧
            match kind, init with
            | .map, _ => mapMeets p cs ncs fr f rows
            | .fold, none => False
            | .fold, some seed =>
              orAfter (nonBoolean (site.child 0) seed).value (eval m p cs fr (site.child 0) seed)
                (fun acc _ => ∃ elems rest, arrs = elems :: rest ∧
                  foldMeets p cs ncs fr f acc elems) calls) calls

def nonBooleanList (site : Site) (k : Nat) : List Expr → Calls → Prop
  | [] => fun _ => False
  | e :: es =>
    orAfter (nonBoolean (site.child k) e).value (eval m p cs fr (site.child k) e)
      fun _ => nonBooleanList site (k + 1) es

def nonBooleanFields (site : Site) (k : Nat) : List (String × Expr) → Calls → Prop
  | [] => fun _ => False
  | (_, e) :: fields =>
    orAfter (nonBoolean (site.child k) e).value (eval m p cs fr (site.child k) e)
      fun _ => nonBooleanFields site (k + 1) fields

def nonBooleanArrays (site : Site) (k : Nat) : List Expr → Calls → Prop
  | [] => fun _ => False
  | e :: es =>
    orAfter (nonBoolean (site.child k) e).value (eval m p cs fr (site.child k) e)
      fun v calls => ∃ xs, asArray v = .ok xs ∧ nonBooleanArrays site (k + 1) es calls

end

end

section

variable (m : Machine) (p : Project) (roots : Site → Bool)

def equationMeets (cs : Callees) (ncs : NonBooleanCalls) (n : NodeDef) (info : ClockInfo)
    (state : State) (env : Env) (i : Nat) (calls : Calls) : Prop :=
  ∃ eq, n.equations[i]? = some eq ∧ isActive info i env = .ok true ∧
    let found := nonBoolean m p cs ncs ⟨env, state, info.siteClocks⟩ ⟨n.name, i, []⟩ eq.rhs
    if roots ⟨n.name, i, []⟩ then found.decision calls else found.value calls

def equationsMeet (cs : Callees) (ncs : NonBooleanCalls) (n : NodeDef) (info : ClockInfo)
    (state : State) : List Nat → Env → Calls → Prop
  | [], _ => fun _ => False
  | i :: order, env =>
    orAfter (equationMeets m p roots cs ncs n info state env i)
      (equationStep m p cs n info state env i) fun env => equationsMeet cs ncs n info state order env

def operatorMeets (cs : Callees) (ncs : NonBooleanCalls) (key : Site) (n : NodeDef)
    (order : List Nat) (env : Env) (calls : Calls) : Prop :=
  let state := (calls key).getD .initial
  equationsMeet m p roots cs ncs n (clocksOf n) state order (reseed n state.prev env)
    state.childCalls

def stepInstanceMeets (cs : Callees) (ncs : NonBooleanCalls) (key : Site) (n : NodeDef)
    (args : List Value) (consts : Env) (calls : Calls) : Prop :=
  ∃ env, calleeEnv m p n args consts = .ok env ∧ ∃ order, bodyOrder n = .ok order ∧
    match n.kind with
    | .function => equationsMeet m p roots cs ncs n (clocksOf n) .initial order env calls
    | .operator => operatorMeets m p roots cs ncs key n order env calls
    | .imported => False

def callFunctionMeets (cs : Callees) (ncs : NonBooleanCalls) (n : NodeDef) (args : List Value)
    (consts : Env) : Prop :=
  args.length = n.inputs.length ∧ ∃ env, calleeEnv m p n args consts = .ok env ∧
    ∃ order, bodyOrder n = .ok order ∧
      equationsMeet m p roots cs ncs n {} .initial order env Calls.empty

def nonBooleanCalls : Nat → NonBooleanCalls
  | 0 => ⟨fun _ _ _ _ _ => False, fun _ _ _ => False⟩
  | depth + 1 =>
    ⟨stepInstanceMeets m p roots (callees m p depth) (nonBooleanCalls depth),
      callFunctionMeets m p roots (callees m p depth) (nonBooleanCalls depth)⟩

/-- A cycle on `inputs` meets a condition of a decision that is not a boolean. -/
def Sim.MeetsNonBoolean (sim : Sim) (inputs : Env) : Prop :=
  ∃ env, sim.seed m p inputs = .ok env ∧
    equationsMeet m p roots (callees m p m.stack) (nonBooleanCalls m p roots m.stack) sim.node
      sim.clockInfo sim.state sim.eqOrder env sim.callStates

end

/-- The fault of a condition that is not a boolean. -/
def IsDecisionFault (e : Fault) : Prop := ∃ v, e = .error (.decisionNotBool v)

/-- The registered decisions of a coverage. -/
def HasRoots (roots : Site → Bool) (c : Coverage) : Prop := c.isRoot = roots

theorem Coverage.isRoot_mark (c : Coverage) (key : Site) (outcome : Bool) :
    (c.mark key outcome).isRoot = c.isRoot := rfl

theorem Coverage.isRoot_recordTrial (c : Coverage) (root : Site) (obs : Observations)
    (outcome : Bool) : (c.recordTrial root obs outcome).isRoot = c.isRoot := by
  funext key
  unfold isRoot recordTrial
  rw [List.any_map]
  congr 1
  funext d
  simp only [Function.comp_apply]
  split
  · split <;> rfl
  · rfl

/-- A recording computation against the one without coverage. -/
abbrev Recorded (roots : Site → Bool) {α β : Type} (P : Calls → Prop) (Q : α → β → Prop)
    (x : EvalM α) (y : CovM β) : Prop :=
  Records (HasRoots roots) IsDecisionFault P Q x y

section

variable {m : Machine} {p : Project} {roots : Site → Bool} {cs : Callees} {ncs : NonBooleanCalls}
  {ccs : CovCallees} {fr : Frame}

/-- What an expression's evaluation with coverage has to do with its evaluation
without. -/
structure Follows (roots : Site → Bool) (x : EvalM Value) (found : NonBoolean)
    (ev : Evaluation) : Prop where
  value : Recorded roots found.value (· = ·) x ev.value
  decision : Recorded roots found.decision (fun v r => v = .bool r.1) x ev.decision

namespace Follows

theorem decided_value (site : Site) : ∀ v w : Value, v = w →
    Recorded roots (fun _ => v.asBool = none) (fun v r => v = .bool r.1) (pure v)
      (match w.asBool with
      | some b => pure (b, [(site, b)])
      | none => .lift (error (.decisionNotBool w))) := by
  rintro v _ rfl
  cases v with
  | bool b =>
    have hpure : Recorded roots (fun _ => False) (fun v r => v = Value.bool r.1)
        (pure (.bool b)) (pure (b, [(site, b)])) := Records.pure rfl
    exact hpure.congr fun _ => by simp [Value.asBool]
  | _ => exact (Records.fault ⟨_, rfl⟩ _).congr fun _ => by simp [Value.asBool]

theorem atomic {x : EvalM Value} {P : Calls → Prop} {y : CovM Value} {site : Site}
    (h : Recorded roots P (· = ·) x y) : Follows roots x (.atomic x P) (.atomic site y) where
  value := h
  decision := by
    have hdecision := h.bind (decided_value site)
    rw [Stateful.bind_pure] at hdecision
    exact hdecision

theorem negated {arg : EvalM Value} {found : NonBoolean} {ev : Evaluation}
    (h : Follows roots arg found ev) :
    Follows roots (arg >>= fun v => .lift (evalUnary m .not v)) (.negated found found.value)
      (.negated ev (ev.value >>= fun v => .lift (evalUnary m .not v))) where
  value := h.value.bind_of_never fun v _ hv => hv ▸ Records.lift (evalUnary m .not v)
  decision := by
    apply h.decision.bind_of_never
    rintro _ ⟨b, obs⟩ rfl
    exact Records.pure rfl

theorem connected {op : BinOp} {f : Bool → Bool → Bool} {lhs rhs : EvalM Value}
    {foundL foundR : NonBoolean} {evL evR : Evaluation} (hop : connective op = some f)
    (hl : Follows roots lhs foundL evL) (hr : Follows roots rhs foundR evR) :
    Follows roots
      (lhs >>= fun a => rhs >>= fun b => .lift (evalBinary m op a b))
      (.connected foundL foundR lhs (orAfter foundL.value lhs fun _ => foundR.value))
      (.connected f evL evR
        (evL.value >>= fun a => evR.value >>= fun b => .lift (evalBinary m op a b))) where
  value := by
    apply hl.value.bind
    rintro a _ rfl
    apply hr.value.bind_of_never
    rintro b _ rfl
    exact Records.lift (evalBinary m op a b)
  decision := by
    apply hl.decision.bind
    rintro _ ⟨a, obsL⟩ rfl
    apply hr.decision.bind_of_never
    rintro _ ⟨b, obsR⟩ rfl
    have heval : evalBinary m op (.bool a) (.bool b) = .ok (.bool (f a b)) := by
      cases op <;> cases hop <;> rfl
    rw [heval]
    exact Records.pure rfl

end Follows

/-- What calls made with coverage have to do with those made without. -/
structure FollowsCalls (roots : Site → Bool) (cs : Callees) (ncs : NonBooleanCalls)
    (ccs : CovCallees) : Prop where
  stepInstance : ∀ site n args consts,
    Recorded roots (ncs.stepInstance site n args consts) (· = ·)
      (cs.stepInstance site n args consts) (ccs.stepInstance site n args consts)
  callFunctionValues : ∀ n args consts,
    Recorded roots (fun _ => ncs.callFunctionValues n args consts) (· = ·)
      (.lift (cs.callFunctionValues n args consts)) (ccs.callFunctionValues n args consts)

variable (hcalls : FollowsCalls roots cs ncs ccs)
include hcalls

theorem mapCov_records (f : NodeDef) (rows : List (List Value)) :
    Recorded roots (fun _ => mapMeets p cs ncs fr f rows) (· = ·)
      (.lift (rows.mapM fun row => cs.callFunctionValues f row (constantsFromEnv p fr.env)))
      (mapCov p ccs fr f rows) := by
  induction rows with
  | nil => exact Records.pure rfl
  | cons row rows ih =>
    rw [List.mapM_cons, Stateful.lift_bind]
    apply Records.congr (P := orAfter (fun _ => ncs.callFunctionValues f row _)
      (.lift (cs.callFunctionValues f row (constantsFromEnv p fr.env)))
      fun _ _ => mapMeets p cs ncs fr f rows)
    · apply (hcalls.callFunctionValues f row _).bind
      rintro v _ rfl
      rw [Stateful.lift_bind]
      apply ih.bind_of_never
      rintro vs _ rfl
      exact Records.pure rfl
    · intro s
      simp [mapMeets, orAfter]

theorem foldCov_records (f : NodeDef) (acc : Value) (elems : List Value) :
    Recorded roots (fun _ => foldMeets p cs ncs fr f acc elems) (· = ·)
      (.lift (foldFunction p cs fr f acc elems)) (foldCov p ccs fr f acc elems) := by
  induction elems generalizing acc with
  | nil => exact Records.pure rfl
  | cons elem elems ih =>
    unfold foldFunction
    rw [List.foldlM_cons, Stateful.lift_bind]
    apply Records.congr (P := orAfter (fun _ => ncs.callFunctionValues f [acc, elem] _)
      (.lift (cs.callFunctionValues f [acc, elem] (constantsFromEnv p fr.env)))
      fun v _ => foldMeets p cs ncs fr f v elems)
    · apply (hcalls.callFunctionValues f [acc, elem] _).bind
      rintro v _ rfl
      exact ih v
    · intro s
      simp [foldMeets, orAfter]

omit hcalls in
theorem evaluationList_records {es : List Expr}
    (h : ∀ e ∈ es, ∀ site, Follows roots (eval m p cs fr site e) (nonBoolean m p cs ncs fr site e)
      (evaluation m p cs ccs fr site e)) (site : Site) (k : Nat) :
    Recorded roots (nonBooleanList m p cs ncs fr site k es) (· = ·)
      (evalList m p cs fr site k es) (evaluationList m p cs ccs fr site k es) := by
  induction es generalizing k with
  | nil => exact Records.pure rfl
  | cons e es ih =>
    obtain ⟨he, hes⟩ := List.forall_mem_cons.mp h
    apply (he _).value.bind
    rintro v _ rfl
    apply (ih hes (k + 1)).bind_of_never
    rintro vs _ rfl
    exact Records.pure rfl

omit hcalls in
theorem evaluationFields_records {fields : List (String × Expr)}
    (h : ∀ f ∈ fields, ∀ site, Follows roots (eval m p cs fr site f.2)
      (nonBoolean m p cs ncs fr site f.2) (evaluation m p cs ccs fr site f.2))
    (site : Site) (k : Nat) (values : List (String × Value)) :
    Recorded roots (nonBooleanFields m p cs ncs fr site k fields) (· = ·)
      (evalFields m p cs fr site k values fields)
      (evaluationFields m p cs ccs fr site k values fields) := by
  induction fields generalizing k values with
  | nil => exact Records.pure rfl
  | cons f fields ih =>
    obtain ⟨hf, hfields⟩ := List.forall_mem_cons.mp h
    apply (hf _).value.bind
    rintro v _ rfl
    exact ih hfields (k + 1) _

omit hcalls in
theorem evaluationArrays_records {es : List Expr}
    (h : ∀ e ∈ es, ∀ site, Follows roots (eval m p cs fr site e) (nonBoolean m p cs ncs fr site e)
      (evaluation m p cs ccs fr site e)) (site : Site) (k : Nat) :
    Recorded roots (nonBooleanArrays m p cs ncs fr site k es) (· = ·)
      (evalArrays m p cs fr site k es) (evaluationArrays m p cs ccs fr site k es) := by
  induction es generalizing k with
  | nil => exact Records.pure rfl
  | cons e es ih =>
    obtain ⟨he, hes⟩ := List.forall_mem_cons.mp h
    apply (he _).value.bind
    rintro v _ rfl
    apply Records.bind_of_always
    intro xs _
    apply (ih hes (k + 1)).bind_of_never
    rintro xss _ rfl
    exact Records.pure rfl

omit hcalls in
/-- A branch is evaluated, and the other one stepped for its effect. -/
theorem branch_records {x : EvalM Value} {P : Calls → Prop} {y : CovM Value} (site : Site)
    (other : Expr) (h : Recorded roots P (· = ·) x y) :
    Recorded roots P (· = ·)
      (x >>= fun v => stepUntaken other (eval m p cs fr site other) >>= fun _ =>
        pure (commonReal p fr.env v other))
      (y >>= fun v => stepUntakenCov m p cs fr site other >>= fun _ =>
        pure (commonReal p fr.env v other)) := by
  apply h.bind_of_never
  rintro v _ rfl
  apply (Records.unrecorded _).bind_of_never
  rintro _ _ _
  exact Records.pure rfl

omit hcalls in
/-- A conditional activation, once its condition is known. -/
theorem activation_records {site : Site} {call : EvalM Value} {defaults : EvalM (List Value)}
    {P D : Calls → Prop} {callCov : CovM Value} {defaultsCov : CovM (List Value)}
    (hcall : Recorded roots P (· = ·) call callCov)
    (hdefaults : Recorded roots D (· = ·) defaults defaultsCov) (on : Bool) :
    Recorded roots
      (fun calls => ∃ b, Value.bool on = .bool b ∧
        if b then P calls else lastOutputs site calls = none ∧ D calls) (· = ·)
      (if on then call >>= fun v => setLastOutputs site v >>= fun _ => pure v
        else .get >>= fun calls =>
          match lastOutputs site calls with
          | some v => pure v
          | none => defaults >>= fun vs =>
            match vs with
            | [v] => pure v
            | vs => pure (.tuple vs))
      (if on then callCov >>= fun v => .unrecorded (setLastOutputs site v) >>= fun _ => pure v
        else .unrecorded .get >>= fun calls =>
          match lastOutputs site calls with
          | some v => pure v
          | none => defaultsCov >>= fun vs =>
            match vs with
            | [v] => pure v
            | vs => pure (.tuple vs)) := by
  cases on with
  | true =>
    apply Records.congr (P := P)
    · apply hcall.bind_of_never
      rintro v _ rfl
      apply (Records.unrecorded _).bind_of_never
      rintro _ _ _
      exact Records.pure rfl
    · simp
  | false =>
    apply Records.congr (P := fun calls => lastOutputs site calls = none ∧ D calls)
    · apply Records.get_bind (P := fun t calls => lastOutputs site t = none ∧ D calls)
      intro t
      cases lastOutputs site t with
      | some v => exact (Records.pure rfl).congr fun _ => by simp
      | none =>
        apply Records.congr (P := D)
        · apply hdefaults.bind_of_never
          rintro vs _ rfl
          match vs with
          | [] | [_] | _ :: _ :: _ => exact Records.pure rfl
        · simp
    · simp

omit hcalls in
theorem nonBoolean_call {site : Site} {node : String} {args : List Expr}
    (h : ¬ (node = condact ∧ (p.findNode node).isNone)) :
    nonBoolean m p cs ncs fr site (.call node args) =
      .atomic (eval m p cs fr site (.call node args)) fun calls =>
        ∃ n, callee p node args.length = .ok n ∧
          orAfter (nonBooleanList m p cs ncs fr site 0 args) (evalList m p cs fr site 0 args)
            (fun vs => ncs.stepInstance site n vs fr.env) calls := by
  match args with
  | [] | [_] | _ :: _ :: _ => simp only [nonBoolean, if_neg h]

omit hcalls in
theorem evaluation_call {site : Site} {node : String} {args : List Expr}
    (h : ¬ (node = condact ∧ (p.findNode node).isNone)) :
    evaluation m p cs ccs fr site (.call node args) = .atomic site (do
      let n ← .lift (callee p node args.length)
      let vs ← evaluationList m p cs ccs fr site 0 args
      ccs.stepInstance site n vs fr.env) := by
  match args with
  | [] | [_] | _ :: _ :: _ => simp only [evaluation, if_neg h]

theorem evaluation_follows (e : Expr) (site : Site) :
    Follows roots (eval m p cs fr site e) (nonBoolean m p cs ncs fr site e)
      (evaluation m p cs ccs fr site e) := by
  induction e generalizing site with
  | const lit =>
    simp only [eval, nonBoolean, evaluation]
    exact .atomic (Records.pure rfl)
  | var name =>
    simp only [eval, nonBoolean, evaluation]
    exact .atomic (Records.lift _)
  | unary op arg ih =>
    cases op with
    | not =>
      simp only [eval, nonBoolean, evaluation]
      exact .negated (ih _)
    | neg =>
      simp only [eval, nonBoolean, evaluation]
      apply Follows.atomic
      apply (ih _).value.bind_of_never
      rintro v _ rfl
      exact Records.lift _
  | binary op lhs rhs ihl ihr =>
    simp only [eval, nonBoolean, evaluation]
    cases hop : connective op with
    | some f => exact .connected hop (ihl _) (ihr _)
    | none =>
      apply Follows.atomic
      apply (ihl _).value.bind
      rintro l _ rfl
      apply (ihr _).value.bind_of_never
      rintro r _ rfl
      exact Records.lift _
  | ifThenElse cond thenBranch elseBranch ihc iht ihe =>
    simp only [eval, nonBoolean, evaluation]
    apply Follows.atomic
    apply (ihc _).decision.bind
    rintro _ ⟨outcome, obs⟩ rfl
    have hroots : ∀ c, HasRoots roots c →
        HasRoots roots ((c.mark (site.child 0) outcome).recordTrial (site.child 0) obs outcome) :=
      fun c hc => by rw [HasRoots, Coverage.isRoot_recordTrial, Coverage.isRoot_mark, hc]
    apply Records.modifyRecord_bind hroots
    cases outcome with
    | true => exact (branch_records _ _ (iht _).value).congr fun _ => by simp
    | false => exact (branch_records _ _ (ihe _).value).congr fun _ => by simp
  | pre arg ih =>
    simp only [eval, nonBoolean, evaluation]
    exact .atomic (Records.lift _)
  | arrow init body ihi ihb =>
    simp only [eval, nonBoolean, evaluation]
    apply Follows.atomic
    split
    · exact branch_records _ _ (ihi _).value
    · exact branch_records _ _ (ihb _).value
  | call node args ih =>
    by_cases hcondact : node = condact ∧ (p.findNode node).isNone
    · rcases args with _ | ⟨clock, _ | ⟨call, defaults⟩⟩
      · simp only [eval, nonBoolean, evaluation, if_pos hcondact]
        exact .atomic (Records.lift _)
      · simp only [eval, nonBoolean, evaluation, if_pos hcondact]
        exact .atomic (Records.lift _)
      · obtain ⟨ihclock, ih⟩ := List.forall_mem_cons.mp ih
        obtain ⟨ihcall, ih⟩ := List.forall_mem_cons.mp ih
        simp only [eval, nonBoolean, evaluation, if_pos hcondact]
        apply Follows.atomic
        apply (ihclock _).value.bind
        rintro v _ rfl
        cases v with
        | bool on => exact activation_records (ihcall _).value (evaluationList_records ih _ _) on
        | _ => exact (Records.lift _).congr fun _ => by simp
    · rw [nonBoolean_call hcondact, evaluation_call hcondact]
      apply Follows.atomic
      rw [eval_call hcondact]
      apply Records.bind_of_always
      intro n _
      apply (evaluationList_records ih _ _).bind
      rintro vs _ rfl
      exact hcalls.stepInstance _ _ _ _
  | field base field ih =>
    simp only [eval, nonBoolean, evaluation]
    apply Follows.atomic
    apply (ih _).value.bind_of_never
    rintro v _ rfl
    exact Records.lift _
  | index base index ihb ihi =>
    simp only [eval, nonBoolean, evaluation]
    apply Follows.atomic
    apply (ihb _).value.bind
    rintro b _ rfl
    apply (ihi _).value.bind_of_never
    rintro i _ rfl
    exact Records.lift _
  | tuple items ih =>
    simp only [eval, nonBoolean, evaluation]
    apply Follows.atomic
    apply (evaluationList_records ih _ _).bind_of_never
    rintro vs _ rfl
    exact Records.pure rfl
  | array items ih =>
    simp only [eval, nonBoolean, evaluation]
    apply Follows.atomic
    apply (evaluationList_records ih _ _).bind_of_never
    rintro vs _ rfl
    exact Records.pure rfl
  | struct ty fields ih =>
    simp only [eval, nonBoolean, evaluation]
    apply Follows.atomic
    apply (evaluationFields_records ih _ _ _).bind_of_never
    rintro vs _ rfl
    exact Records.pure rfl
  | cast target arg ih =>
    simp only [eval, nonBoolean, evaluation]
    apply Follows.atomic
    apply (ih _).value.bind_of_never
    rintro v _ rfl
    exact Records.lift _
  | when arg clock on ih =>
    simp only [eval, nonBoolean, evaluation]
    exact .atomic (ih _).value
  | merge clock onTrue onFalse iht ihf =>
    simp only [eval, nonBoolean, evaluation]
    apply Follows.atomic
    rcases fr.env clock with _ | v
    · exact Records.lift _
    cases v with
    | bool b =>
      cases b with
      | true =>
        apply (iht _).value.bind_of_never
        rintro v _ rfl
        exact Records.pure rfl
      | false =>
        apply (ihf _).value.bind_of_never
        rintro v _ rfl
        exact Records.pure rfl
    | _ => exact Records.lift _
  | iterate kind node init arrays ihi iha =>
    simp only [eval, nonBoolean, evaluation]
    apply Follows.atomic
    apply Records.bind_of_always
    intro f _
    apply (evaluationArrays_records iha _ _).bind
    rintro arrs _ rfl
    apply Records.bind_of_always
    intro rows _
    cases kind with
    | map =>
      apply (mapCov_records hcalls f rows).bind_of_never
      rintro out _ rfl
      exact Records.pure rfl
    | fold =>
      cases init with
      | none => exact Records.lift _
      | some seed =>
        apply (ihi seed rfl _).value.bind
        rintro acc _ rfl
        cases arrs with
        | nil => exact (Records.fail _).congr fun _ => by simp
        | cons elems rest =>
          exact (foldCov_records hcalls f acc elems).congr fun _ => by simp

theorem evalEqRhs_records (site : Site) (rhs : Expr) :
    Recorded roots (fun calls =>
        let found := nonBoolean m p cs ncs fr site rhs
        if roots site then found.decision calls else found.value calls) (· = ·)
      (eval m p cs fr site rhs) (evalEqRhs m p cs ccs fr site rhs) := by
  have hfollows : Follows roots (eval m p cs fr site rhs) (nonBoolean m p cs ncs fr site rhs)
      (evaluation m p cs ccs fr site rhs) := evaluation_follows hcalls rhs site
  apply Records.record_bind
  intro c hc
  rw [HasRoots] at hc
  rw [hc]
  cases roots site with
  | true =>
    rw [← Stateful.bind_pure (eval m p cs fr site rhs)]
    apply hfollows.decision.bind_of_never
    rintro _ ⟨outcome, obs⟩ rfl
    have hroots : ∀ c, HasRoots roots c → HasRoots roots (c.recordTrial site obs outcome) :=
      fun c hc => by rw [HasRoots, Coverage.isRoot_recordTrial, hc]
    apply Records.modifyRecord_bind hroots
    exact Records.pure rfl
  | false => exact hfollows.value

theorem equationStep_records (n : NodeDef) (info : ClockInfo) (state : State) (env : Env)
    (i : Nat) :
    Recorded roots (equationMeets m p roots cs ncs n info state env i) (· = ·)
      (equationStep m p cs n info state env i) (equationStepCov m p cs ccs n info state env i) := by
  unfold equationStep equationStepCov equationMeets
  cases n.equations[i]? with
  | none => exact (Records.pure rfl).congr fun _ => by simp
  | some eq =>
    apply Records.congr (P := fun calls => ∃ active, isActive info i env = .ok active ∧
      (active = true ∧
        let found := nonBoolean m p cs ncs ⟨env, state, info.siteClocks⟩ ⟨n.name, i, []⟩ eq.rhs
        if roots ⟨n.name, i, []⟩ then found.decision calls else found.value calls))
    · apply Records.bind_of_always
      intro active _
      cases active with
      | true =>
        apply Records.congr (P := fun calls =>
          let found := nonBoolean m p cs ncs ⟨env, state, info.siteClocks⟩ ⟨n.name, i, []⟩ eq.rhs
          if roots ⟨n.name, i, []⟩ then found.decision calls else found.value calls)
        · apply (evalEqRhs_records hcalls ⟨n.name, i, []⟩ eq.rhs).bind_of_never
          rintro v _ rfl
          exact Records.lift _
        · simp
      | false => exact (Records.pure rfl).congr fun _ => by simp
    · simp

theorem equationSteps_records (n : NodeDef) (info : ClockInfo) (state : State) (order : List Nat)
    (env : Env) :
    Recorded roots (equationsMeet m p roots cs ncs n info state order env) (· = ·)
      (equationSteps m p cs n info state order env)
      (equationStepsCov m p cs ccs n info state order env) := by
  induction order generalizing env with
  | nil => exact Records.pure rfl
  | cons i order ih =>
    apply (equationStep_records hcalls n info state env i).bind
    rintro env' _ rfl
    exact ih env'

theorem stepOperator_records (key : Site) (n : NodeDef) (order : List Nat) (env : Env) :
    Recorded roots (operatorMeets m p roots cs ncs key n order env) (· = ·)
      (stepOperator m p cs key n order env) (stepOperatorCov m p cs ccs key n order env) := by
  apply Records.get_bind (P := fun calls _ => operatorMeets m p roots cs ncs key n order env calls)
  intro calls
  apply Records.set_bind
  apply (Records.within (equationSteps_records hcalls n _ _ order _)).bind_of_never
  rintro ⟨env', children⟩ ⟨_, _⟩ ⟨rfl, rfl⟩
  apply (Records.unrecorded _).bind_of_never
  rintro ⟨⟨⟩, ticks⟩ _ rfl
  apply (Records.unrecorded _).bind_of_never
  rintro _ _ _
  exact Records.pure rfl

theorem stepInstance_records (key : Site) (n : NodeDef) (args : List Value) (consts : Env) :
    Recorded roots (stepInstanceMeets m p roots cs ncs key n args consts) (· = ·)
      (stepInstance m p cs key n args consts) (stepInstanceCov m p cs ccs key n args consts) := by
  apply Records.bind_of_always
  intro env _
  apply Records.bind_of_always
  intro order _
  cases n.kind with
  | function =>
    apply (equationSteps_records hcalls n _ _ order env).bind_of_never
    rintro env' _ rfl
    exact Records.pure rfl
  | operator => exact stepOperator_records hcalls key n order env
  | imported => exact Records.fail _

theorem callFunctionValues_records (n : NodeDef) (args : List Value) (consts : Env) :
    Recorded roots (fun _ => callFunctionMeets m p roots cs ncs n args consts) (· = ·)
      (.lift (callFunctionValues m p cs n args consts))
      (callFunctionValuesCov m p cs ccs n args consts) := by
  unfold callFunctionValues callFunctionValuesCov callFunctionMeets
  by_cases harity : args.length = n.inputs.length
  · simp only [harity, ne_eq, not_true_eq_false, if_false, true_and, Stateful.lift_bind]
    apply Records.bind_of_always
    intro env _
    apply Records.bind_of_always
    intro order _
    apply (Records.lift_within (equationSteps_records hcalls n {} .initial order env)).bind_of_never
    rintro env' ⟨_, _⟩ rfl
    exact Records.pure rfl
  · simp only [harity, ne_eq, not_false_eq_true, if_true, false_and]
    exact Records.lift _

omit hcalls in
theorem followsCalls (depth : Nat) :
    FollowsCalls roots (callees m p depth) (nonBooleanCalls m p roots depth)
      (covCallees m p depth) := by
  induction depth with
  | zero => exact ⟨fun _ _ _ _ => Records.fail _, fun _ _ _ => Records.fail _⟩
  | succ depth ih => exact ⟨stepInstance_records ih, callFunctionValues_records ih⟩

end

namespace Sim

section

variable {m : Machine} {p : Project} {roots : Site → Bool}

/-- A cycle with coverage: it fails where a condition is not a boolean, and elsewhere
does what the cycle without coverage does. -/
theorem stepEnvCov_records (inputs : Env) :
    Records (HasRoots roots) IsDecisionFault (fun sim => MeetsNonBoolean m p roots sim inputs)
      (· = ·) (stepEnv m p inputs) (stepEnvCov m p inputs) := by
  have hcalls : FollowsCalls roots (callees m p m.stack) (nonBooleanCalls m p roots m.stack)
      (covCallees m p m.stack) := followsCalls m.stack
  have hsteps := fun (sim : Sim) => equationSteps_records (m := m) (p := p) hcalls sim.node
    sim.clockInfo sim.state sim.eqOrder
  constructor
  case fails =>
    rintro sim c hc ⟨env, hseed, hmeets⟩
    obtain ⟨e, s', hy, hF⟩ := (hsteps sim env).fails sim.callStates c hc hmeets
    obtain ⟨calls, c'⟩ := s'
    exact ⟨e, ({ sim with callStates := calls }, c'), by simp only [stepEnvCov, hseed, hy], hF⟩
  case alike =>
    intro sim c hc hs
    unfold stepEnv stepEnvCov
    cases hseed : sim.seed m p inputs with
    | error e =>
      simp only [hseed]
      exact .error e hc
    | ok env =>
      rcases (hsteps sim env).alike sim.callStates c hc fun h => hs ⟨env, hseed, h⟩ with
        ⟨env', _, calls, c', hx, hy, hc', rfl⟩ | ⟨e, calls, c', hx, hy, hc'⟩
      · simp only [hseed, hx, hy]
        rcases tickChains env' sim.clockInfo.chains sim.state.clockTicks with ⟨_ | _, ticks⟩
        · exact .error _ hc'
        · exact .ok hc' rfl
      · simp only [hseed, hx, hy]
        exact .error e hc'

theorem stepCov_records (inputs : Env) :
    Records (HasRoots roots) IsDecisionFault (fun sim => MeetsNonBoolean m p roots sim inputs)
      (· = ·) (step m p inputs) (stepCov m p inputs) := by
  apply (stepEnvCov_records inputs).bind_of_never
  rintro env _ rfl
  apply Records.get_bind (P := fun _ _ => False)
  intro sim
  exact Records.lift _

theorem run_eq_trace (sim : Sim) (rows : List Env) :
    sim.run m p rows = trace (step m p) rows sim := by
  induction rows generalizing sim with
  | nil => rfl
  | cons inputs rows ih => exact congrArg _ (ih _)

theorem reached_eq (sim : Sim) (rows : List Env) :
    sim.reached m p rows = states (step m p) rows sim := by
  rw [reached, run_eq_trace]
  rfl

/-- The states a run passes through do not depend on what its steps return. -/
theorem reached_eq_env (sim : Sim) (rows : List Env) :
    sim.reached m p rows = states (stepEnv m p) rows sim := by
  rw [reached, run_eq_trace]
  apply congrArg (sim :: ·)
  induction rows generalizing sim with
  | nil => rfl
  | cons inputs rows ih => simp only [trace, List.map_cons, step_state, ih]

end

/-- Coverage changes nothing in a run in which every atomic condition of a decision
has a boolean value. -/
theorem coverage_transparent (m : Machine) (p : Project) (sim : Sim) (rows : List Env)
    (h : ∀ (k : Nat) inputs sim', rows[k]? = some inputs →
      (sim.reached m p rows)[k]? = some sim' →
      ¬ sim'.MeetsNonBoolean m p (enableCoverage p sim.node).isRoot inputs) :
    (trace (stepCov m p) rows (sim, enableCoverage p sim.node)).map (fun o => (o.1, o.2.1)) =
        sim.run m p rows ∧
      (trace (stepEnvCov m p) rows (sim, enableCoverage p sim.node)).map
        (fun o => (o.1, o.2.1)) = trace (stepEnv m p) rows sim := by
  constructor
  · rw [run_eq_trace]
    rw [reached_eq] at h
    exact Records.trace stepCov_records rfl h
  · rw [reached_eq_env] at h
    exact Records.trace stepEnvCov_records rfl h

end Sim

/-- `o = if not a then 1 else 2`. -/
def negatedChoice : NodeDef where
  name := "N"
  kind := .operator
  inputs := [⟨"a", .bool⟩]
  outputs := [⟨"o", .int32⟩]
  locals := []
  equations := [⟨["o"], .ifThenElse (.unary .not (.var "a")) (.const (.int 1)) (.const (.int 2))⟩]

/-- A cycle of it on the input true. -/
theorem Sim.coverage_transparent_negatedChoice :
    let p : Project := { packages := [{ name := "main", nodes := [negatedChoice] }] }
    let sim : Sim := ⟨negatedChoice, .initial, Calls.empty, fun _ => none, [0], {}⟩
    let rows := [Env.set (fun _ => none) "a" (.bool true)]
    (trace (stepCov ⟨true, 8⟩ p) rows (sim, enableCoverage p sim.node)).map
      (fun o => (o.1, o.2.1)) = sim.run ⟨true, 8⟩ p rows := by
  refine (coverage_transparent _ _ _ _ ?_).1
  intro k inputs sim' hk hsim'
  match k with
  | k + 1 => cases hk
  | 0 =>
    cases hk
    cases hsim'
    rintro ⟨env, hseed, hmeets⟩
    cases hseed
    rcases hmeets with ⟨eq, heq, -, hfound⟩ | ⟨_, _, _, hfound⟩
    · cases heq
      rcases hfound with (hnever | ⟨v, _, hv, hnone⟩) | ⟨v, _, hv, b, hb, hbranch⟩
      · exact hnever
      · cases hv
        cases hnone
      · cases hv
        cases hb
        exact hbranch
    · exact hfound

/-- `a = (1, 2); o = if a then 1 else 2` with a boolean local `a`. -/
def tupleCondition : NodeDef where
  name := "N"
  kind := .operator
  inputs := []
  outputs := [⟨"o", .int32⟩]
  locals := [⟨"a", .bool⟩]
  equations := [⟨["a"], .tuple [.const (.int 1), .const (.int 2)]⟩,
    ⟨["o"], .ifThenElse (.var "a") (.const (.int 1)) (.const (.int 2))⟩]

theorem Sim.exists_differing_error :
    ∃ (p : Project) (sim : Sim), Typecheck.Accepted p ∧ Sim.new ⟨true, 8⟩ p "N" = .ok sim ∧
      sim.node.inputs = [] ∧
      (trace (stepCov ⟨true, 8⟩ p) [fun _ => none] (sim, enableCoverage p sim.node)).map
        (fun o => (o.1, o.2.1)) ≠ sim.run ⟨true, 8⟩ p [fun _ => none] := by
  refine ⟨{ packages := [{ name := "main", nodes := [tupleCondition] }] },
    ⟨tupleCondition, .initial, Calls.empty, fun _ => none, [0, 1], {}⟩, by decide, rfl, rfl, ?_⟩
  intro h
  have herror := congrArg (List.map (·.1)) h
  cases herror

end OpenLustre.Simulator
