import OpenLustre.Sim.Registration

/-! Which expressions a run evaluates, against the sites that coverage registers. -/

namespace OpenLustre.Simulator

open OpenLustre.Ir

/-- An expression that is evaluated, with its site. -/
abbrev Event := Site × Expr

/-- What is evaluated from a state on. -/
abbrev Trail := Calls → Event → Prop

namespace Trail

def nothing : Trail := fun _ _ => False

/-- The expression itself, and what is evaluated inside it. -/
def here (site : Site) (e : Expr) (inside : Trail) : Trail := fun calls ev =>
  ev = (site, e) ∨ inside calls ev

/-- What is evaluated first, and after `x` succeeded what is evaluated next. -/
def andThen {α : Type} (first : Trail) (x : EvalM α) (next : α → Trail) : Trail :=
  fun calls ev => first calls ev ∨ ∃ a calls', x calls = (.ok a, calls') ∧ next a calls' ev

end Trail

open Trail

/-- What is evaluated in the bodies that are called. -/
structure VisitsCallees where
  stepInstance : Site → NodeDef → List Value → Env → Trail
  callFunctionValues : NodeDef → List Value → Env → Event → Prop

section

variable (m : Machine) (p : Project) (cs : Callees) (vis : VisitsCallees) (fr : Frame)

/-- A function is applied to the rows until it fails. -/
def visitsMap (f : NodeDef) : List (List Value) → Event → Prop
  | [], _ => False
  | row :: rows, ev =>
    vis.callFunctionValues f row (constantsFromEnv p fr.env) ev ∨
      (∃ v, cs.callFunctionValues f row (constantsFromEnv p fr.env) = .ok v) ∧ visitsMap f rows ev

def visitsFold (f : NodeDef) : Value → List Value → Event → Prop
  | _, [], _ => False
  | acc, elem :: elems, ev =>
    vis.callFunctionValues f [acc, elem] (constantsFromEnv p fr.env) ev ∨
      ∃ v, cs.callFunctionValues f [acc, elem] (constantsFromEnv p fr.env) = .ok v ∧
        visitsFold f v elems ev

/-- The calls of a branch not taken are evaluated for their state. -/
def untaken (site : Site) (other : Expr) (inside : Trail) : Trail :=
  if other.hasCall then here site other inside else nothing

mutual

/-- What is evaluated inside an expression, case by case as `eval` evaluates it. -/
def inside (site : Site) : Expr → Trail
  | .const _ | .var _ | .pre _ => nothing
  | .unary _ arg | .cast _ arg | .when arg _ _ | .field arg _ =>
    here (site.child 0) arg (inside (site.child 0) arg)
  | .binary _ lhs rhs | .index lhs rhs =>
    (here (site.child 0) lhs (inside (site.child 0) lhs)).andThen
      (eval m p cs fr (site.child 0) lhs)
      fun _ => here (site.child 1) rhs (inside (site.child 1) rhs)
  | .ifThenElse cond thenBranch elseBranch =>
    (here (site.child 0) cond (inside (site.child 0) cond)).andThen
      (eval m p cs fr (site.child 0) cond) fun c =>
        match c with
        | .bool true =>
          (here (site.child 1) thenBranch (inside (site.child 1) thenBranch)).andThen
            (eval m p cs fr (site.child 1) thenBranch)
            fun _ => untaken (site.child 2) elseBranch (inside (site.child 2) elseBranch)
        | .bool false =>
          (here (site.child 2) elseBranch (inside (site.child 2) elseBranch)).andThen
            (eval m p cs fr (site.child 2) elseBranch)
            fun _ => untaken (site.child 1) thenBranch (inside (site.child 1) thenBranch)
        | _ => nothing
  | .arrow init body =>
    if firstTick fr site then
      (here (site.child 0) init (inside (site.child 0) init)).andThen
        (eval m p cs fr (site.child 0) init)
        fun _ => untaken (site.child 1) body (inside (site.child 1) body)
    else
      (here (site.child 1) body (inside (site.child 1) body)).andThen
        (eval m p cs fr (site.child 1) body)
        fun _ => untaken (site.child 0) init (inside (site.child 0) init)
  | .merge clock onTrue onFalse =>
    match fr.env clock with
    | some (.bool true) => here (site.child 0) onTrue (inside (site.child 0) onTrue)
    | some (.bool false) => here (site.child 1) onFalse (inside (site.child 1) onFalse)
    | _ => nothing
  | .call node args =>
    if node = condact ∧ (p.findNode node).isNone then insideCondact site args
    else
      match callee p node args.length with
      | .error _ => nothing
      | .ok n =>
        (insideList site 0 args).andThen (evalList m p cs fr site 0 args)
          fun vs => vis.stepInstance site n vs fr.env
  | .tuple items | .array items => insideList site 0 items
  | .struct _ fields => insideFields site 0 fields
  | .iterate kind node none arrays =>
    match iterated p node with
    | .error _ => nothing
    | .ok f =>
      (insideArrays site 0 arrays).andThen (evalArrays m p cs fr site 0 arrays) fun arrs =>
        match kind, transpose arrs with
        | .map, .ok rows => fun _ => visitsMap p cs vis fr f rows
        | _, _ => nothing
  | .iterate kind node (some seed) arrays =>
    match iterated p node with
    | .error _ => nothing
    | .ok f =>
      (insideArrays site 1 arrays).andThen (evalArrays m p cs fr site 1 arrays) fun arrs =>
        match kind, transpose arrs with
        | .map, .ok rows => fun _ => visitsMap p cs vis fr f rows
        | .fold, .ok _ =>
          (here (site.child 0) seed (inside (site.child 0) seed)).andThen
            (eval m p cs fr (site.child 0) seed)
            fun acc _ => visitsFold p cs vis fr f acc (arrs.headD [])
        | _, _ => nothing

/-- The call of a `condact`, or its defaults until there are last outputs. -/
def insideCondact (site : Site) : List Expr → Trail
  | clock :: call :: defaults =>
    (here (site.child 0) clock (inside (site.child 0) clock)).andThen
      (eval m p cs fr (site.child 0) clock) fun c =>
        match c with
        | .bool true => here (site.child 1) call (inside (site.child 1) call)
        | .bool false => fun calls ev =>
          lastOutputs site calls = none ∧ insideList site 2 defaults calls ev
        | _ => nothing
  | _ => nothing

def insideList (site : Site) (k : Nat) : List Expr → Trail
  | [] => nothing
  | e :: es =>
    (here (site.child k) e (inside (site.child k) e)).andThen (eval m p cs fr (site.child k) e)
      fun _ => insideList site (k + 1) es

def insideFields (site : Site) (k : Nat) : List (String × Expr) → Trail
  | [] => nothing
  | (_, e) :: fields =>
    (here (site.child k) e (inside (site.child k) e)).andThen (eval m p cs fr (site.child k) e)
      fun _ => insideFields site (k + 1) fields

def insideArrays (site : Site) (k : Nat) : List Expr → Trail
  | [] => nothing
  | e :: es =>
    (here (site.child k) e (inside (site.child k) e)).andThen
      (do
        let v ← eval m p cs fr (site.child k) e
        .lift (asArray v))
      fun _ => insideArrays site (k + 1) es

end

end

section

variable (m : Machine) (p : Project)

/-- What is evaluated in the active equations of an order. -/
def visitsSteps (cs : Callees) (vis : VisitsCallees) (n : NodeDef) (info : ClockInfo)
    (state : State) : List Nat → Env → Trail
  | [], _ => nothing
  | i :: order, env =>
    andThen
      (fun calls ev => ∃ eq, n.equations[i]? = some eq ∧ isActive info i env = .ok true ∧
        here ⟨n.name, i, []⟩ eq.rhs
          (inside m p cs vis ⟨env, state, info.siteClocks⟩ ⟨n.name, i, []⟩ eq.rhs) calls ev)
      (equationStep m p cs n info state env i)
      fun env => visitsSteps cs vis n info state order env

/-- What is evaluated in one cycle of a call. -/
def visitsInstance (cs : Callees) (vis : VisitsCallees) (key : Site) (n : NodeDef)
    (args : List Value) (consts : Env) : Trail := fun calls ev =>
  ∃ env order, calleeEnv m p n args consts = .ok env ∧ bodyOrder n = .ok order ∧
    match n.kind with
    | .function => visitsSteps m p cs vis n (clocksOf n) .initial order env calls ev
    | .operator =>
      let state := (calls key).getD .initial
      visitsSteps m p cs vis n (clocksOf n) state order (reseed n state.prev env) state.childCalls ev
    | .imported => False

/-- What is evaluated in one application of a function. -/
def visitsFunction (cs : Callees) (vis : VisitsCallees) (n : NodeDef) (args : List Value)
    (consts : Env) (ev : Event) : Prop :=
  args.length = n.inputs.length ∧ ∃ env order, calleeEnv m p n args consts = .ok env ∧
    bodyOrder n = .ok order ∧ visitsSteps m p cs vis n {} .initial order env Calls.empty ev

def visitsCallees : Nat → VisitsCallees
  | 0 => ⟨fun _ _ _ _ => nothing, fun _ _ _ _ => False⟩
  | depth + 1 =>
    ⟨visitsInstance m p (callees m p depth) (visitsCallees depth),
      visitsFunction m p (callees m p depth) (visitsCallees depth)⟩

/-- What is evaluated in one cycle of a simulation. -/
def Sim.visits (sim : Sim) (inputs : Env) (ev : Event) : Prop :=
  ∃ env, sim.seed m p inputs = .ok env ∧
    visitsSteps m p (callees m p m.stack) (visitsCallees m p m.stack) sim.node sim.clockInfo
      sim.state sim.eqOrder env sim.callStates ev

/-- What is evaluated in some cycle of a run. -/
def Sim.runVisits (sim : Sim) : List Env → Event → Prop
  | [], _ => False
  | inputs :: rows, ev =>
    sim.visits m p inputs ev ∨ Sim.runVisits (sim.step m p inputs).2 rows ev

end

/-- An expression of the body of a node. -/
def InNode (n : NodeDef) (ev : Event) : Prop :=
  ∃ i eq, n.equations[i]? = some eq ∧ ev ∈ (⟨n.name, i, []⟩ : Site).subterms eq.rhs

/-- An expression of the body of a node, or of one that it applies, directly or not. -/
def Within (p : Project) (n : NodeDef) (ev : Event) : Prop :=
  ∃ c, Relation.ReflTransGen (NodeCalls p) n c ∧ InNode c ev

/-- A subexpression, or an expression of a body that is applied. -/
def WithinExpr (p : Project) (site : Site) (e : Expr) (ev : Event) : Prop :=
  ev ∈ site.subterms e ∨ ∃ f ∈ e.applied, ∃ c, p.findNode f = some c ∧ Within p c ev

section

variable {p : Project} {site : Site} {ev : Event}

theorem WithinExpr.child {e c : Expr} {k : Nat} (hc : e.children[k]? = some c)
    (h : WithinExpr p (site.child k) c ev) : WithinExpr p site e ev := by
  rcases h with h | ⟨f, hf, h⟩
  · left
    rw [Site.subterms_eq, Site.subtermsList_eq]
    exact List.mem_cons_of_mem _
      (List.mem_flatMap.mpr ⟨(c, k), List.mk_mem_zipIdx_iff_getElem?.mpr hc, h⟩)
  · obtain ⟨x, hx, hname⟩ := List.mem_filterMap.mp hf
    have hmem := Expr.subterms_of_child (List.mem_of_getElem? hc) hx
    exact .inr ⟨f, List.mem_filterMap.mpr ⟨x, hmem, hname⟩, h⟩

theorem WithinExpr.self (site : Site) (e : Expr) : WithinExpr p site e (site, e) :=
  .inl (site.self_mem_subterms e)

/-- What is evaluated inside an expression lies within it. -/
def Stays (p : Project) (site : Site) (e : Expr) (inside : Trail) : Prop :=
  ∀ calls ev, inside calls ev → WithinExpr p site e ev

namespace Stays

variable {e c : Expr} {k : Nat} {t u : Trail}

theorem nothing : Stays p site e nothing := fun _ _ h => h.elim

theorem here (hc : e.children[k]? = some c) (h : Stays p (site.child k) c t) :
    Stays p site e (here (site.child k) c t) := by
  rintro calls ev (rfl | hev)
  · exact .child hc (.self _ c)
  · exact .child hc (h calls ev hev)

theorem andThen {α : Type} {x : EvalM α} {next : α → Trail} (ht : Stays p site e t)
    (hnext : ∀ a, Stays p site e (next a)) : Stays p site e (t.andThen x next) := by
  rintro calls ev (h | ⟨a, calls', -, h⟩)
  · exact ht calls ev h
  · exact hnext a calls' ev h

theorem untaken (hc : e.children[k]? = some c) (h : Stays p (site.child k) c t) :
    Stays p site e (untaken (site.child k) c t) := by
  unfold Simulator.untaken
  split
  · exact here hc h
  · exact nothing

end Stays

/-- What is evaluated in a called body lies within it. -/
structure VisitsCallees.Stay (p : Project) (vis : VisitsCallees) : Prop where
  stepInstance : ∀ key n args consts calls ev, vis.stepInstance key n args consts calls ev →
    Within p n ev
  callFunctionValues : ∀ n args consts ev, vis.callFunctionValues n args consts ev → Within p n ev

variable {m : Machine} {cs : Callees} {vis : VisitsCallees} {fr : Frame}

theorem visitsMap_within (hvis : vis.Stay p) {f : NodeDef} {rows : List (List Value)}
    (h : visitsMap p cs vis fr f rows ev) : Within p f ev := by
  induction rows with
  | nil => exact h.elim
  | cons row rows ih =>
    rcases h with h | ⟨-, h⟩
    · exact hvis.callFunctionValues _ _ _ _ h
    · exact ih h

theorem visitsFold_within (hvis : vis.Stay p) {f : NodeDef} {acc : Value} {elems : List Value}
    (h : visitsFold p cs vis fr f acc elems ev) : Within p f ev := by
  induction elems generalizing acc with
  | nil => exact h.elim
  | cons elem elems ih =>
    rcases h with h | ⟨v, -, h⟩
    · exact hvis.callFunctionValues _ _ _ _ h
    · exact ih h

section

variable {e : Expr} {es : List Expr}
  (h : ∀ c ∈ es, ∀ site, Stays p site c (inside m p cs vis fr site c))
include h

theorem insideList_stays (k : Nat) (hes : ∀ j c, es[j]? = some c → e.children[k + j]? = some c) :
    Stays p site e (insideList m p cs vis fr site k es) := by
  induction es generalizing k with
  | nil => exact .nothing
  | cons c es ih =>
    obtain ⟨hc, htail⟩ := List.forall_mem_cons.mp h
    refine .andThen (.here (hes 0 c rfl) (hc _)) fun _ => ih htail (k + 1) fun j d hd => ?_
    rw [Nat.add_right_comm]
    exact hes (j + 1) d hd

theorem insideArrays_stays (k : Nat) (hes : ∀ j c, es[j]? = some c → e.children[k + j]? = some c) :
    Stays p site e (insideArrays m p cs vis fr site k es) := by
  induction es generalizing k with
  | nil => exact .nothing
  | cons c es ih =>
    obtain ⟨hc, htail⟩ := List.forall_mem_cons.mp h
    refine .andThen (.here (hes 0 c rfl) (hc _)) fun _ => ih htail (k + 1) fun j d hd => ?_
    rw [Nat.add_right_comm]
    exact hes (j + 1) d hd

end

theorem insideFields_stays {e : Expr} {fields : List (String × Expr)}
    (h : ∀ f ∈ fields, ∀ site, Stays p site f.2 (inside m p cs vis fr site f.2)) (k : Nat)
    (hes : ∀ j c, (fields.map (·.2))[j]? = some c → e.children[k + j]? = some c) :
    Stays p site e (insideFields m p cs vis fr site k fields) := by
  induction fields generalizing k with
  | nil => exact .nothing
  | cons f fields ih =>
    obtain ⟨hf, htail⟩ := List.forall_mem_cons.mp h
    refine .andThen (.here (hes 0 f.2 rfl) (hf _)) fun _ => ih htail (k + 1) fun j d hd => ?_
    rw [Nat.add_right_comm]
    exact hes (j + 1) d hd

theorem applied_call {node : String} {args : List Expr} : node ∈ (Expr.call node args).applied := by
  rw [Expr.applied, Expr.subterms_eq]
  exact List.mem_filterMap.mpr ⟨_, List.mem_cons_self, rfl⟩

theorem applied_iterate {kind : IterKind} {node : String} {init : Option Expr}
    {arrays : List Expr} : node ∈ (Expr.iterate kind node init arrays).applied := by
  rw [Expr.applied, Expr.subterms_eq]
  exact List.mem_filterMap.mpr ⟨_, List.mem_cons_self, rfl⟩

/-- Evaluating an expression only evaluates what lies within it. -/
theorem inside_stays (hvis : vis.Stay p) (e : Expr) (site : Site) :
    Stays p site e (inside m p cs vis fr site e) := by
  induction e generalizing site with
  | const | var | pre => exact .nothing
  | unary _ _ ih | cast _ _ ih | when _ _ _ ih | field _ _ ih => exact .here rfl (ih _)
  | binary _ _ _ ihl ihr | index _ _ ihl ihr => exact .andThen (.here rfl (ihl _)) fun _ => .here rfl (ihr _)
  | ifThenElse cond thenBranch elseBranch ihc iht ihe =>
    refine .andThen (.here rfl (ihc _)) fun c => ?_
    split
    · exact .andThen (.here rfl (iht _)) fun _ => .untaken rfl (ihe _)
    · exact .andThen (.here rfl (ihe _)) fun _ => .untaken rfl (iht _)
    · exact .nothing
  | arrow init body ihi ihb =>
    simp only [inside]
    split
    · exact .andThen (.here rfl (ihi _)) fun _ => .untaken rfl (ihb _)
    · exact .andThen (.here rfl (ihb _)) fun _ => .untaken rfl (ihi _)
  | merge clock onTrue onFalse iht ihf =>
    simp only [inside]
    split
    · exact .here rfl (iht _)
    · exact .here rfl (ihf _)
    · exact .nothing
  | call node args ih =>
    simp only [inside]
    split
    · match args with
      | [] | [_] => exact .nothing
      | clock :: call :: defaults =>
        obtain ⟨ihclock, ih⟩ := List.forall_mem_cons.mp ih
        obtain ⟨ihcall, ih⟩ := List.forall_mem_cons.mp ih
        refine .andThen (.here rfl (ihclock _)) fun c => ?_
        split
        · exact .here rfl (ihcall _)
        · rintro calls ev ⟨-, hev⟩
          refine insideList_stays ih 2 (fun j d hd => ?_) calls ev hev
          rw [Nat.add_comm]
          exact hd
        · exact .nothing
    · split
      case h_1 => exact .nothing
      case h_2 n hn =>
        refine .andThen (insideList_stays ih 0 fun j c hc => by rwa [Nat.zero_add]) fun vs calls ev hev => ?_
        exact .inr ⟨node, applied_call, n, (callee_eq_ok hn).1, hvis.stepInstance _ _ _ _ _ _ hev⟩
  | tuple items ih | array items ih => exact insideList_stays ih 0 fun j c hc => by rwa [Nat.zero_add]
  | struct ty fields ih => exact insideFields_stays ih 0 fun j c hc => by rwa [Nat.zero_add]
  | iterate kind node init arrays ihi iha =>
    have hmap {f : NodeDef} (hf : iterated p node = .ok f) (rows : List (List Value)) :
        Stays p site (.iterate kind node init arrays) fun _ => visitsMap p cs vis fr f rows :=
      fun _ _ hev => .inr ⟨node, applied_iterate, f, (iterated_eq_ok hf).1, visitsMap_within hvis hev⟩
    cases init with
    | none =>
      simp only [inside]
      split
      case h_1 => exact .nothing
      case h_2 f hf =>
        refine .andThen (insideArrays_stays iha 0 fun j c hc => by rwa [Nat.zero_add]) fun arrs => ?_
        split
        · exact hmap hf _
        · exact .nothing
    | some seed =>
      simp only [inside]
      split
      case h_1 => exact .nothing
      case h_2 f hf =>
        refine .andThen (insideArrays_stays iha 1 fun j c hc => by rwa [Nat.add_comm]) fun arrs => ?_
        split
        · exact hmap hf _
        · refine .andThen (.here rfl (ihi seed rfl _)) fun acc calls ev hev => ?_
          exact .inr ⟨node, applied_iterate, f, (iterated_eq_ok hf).1, visitsFold_within hvis hev⟩
        · exact .nothing

end

section

variable {m : Machine} {p : Project} {cs : Callees} {vis : VisitsCallees} {ev : Event}

theorem visitsSteps_within (hvis : vis.Stay p) {n : NodeDef} {info : ClockInfo} {state : State}
    {order : List Nat} {env : Env} {calls : Calls}
    (h : visitsSteps m p cs vis n info state order env calls ev) : Within p n ev := by
  induction order generalizing env calls with
  | nil => exact h.elim
  | cons i order ih =>
    rcases h with ⟨eq, heq, -, h⟩ | ⟨env', calls', -, h⟩
    · have hexpr : WithinExpr p ⟨n.name, i, []⟩ eq.rhs ev := by
        rcases h with rfl | h
        · exact .self _ _
        · exact inside_stays hvis _ _ _ _ h
      rcases hexpr with h | ⟨f, hf, c, hc, d, hd, h⟩
      · exact ⟨n, .refl, i, eq, heq, h⟩
      · exact ⟨d, .head ⟨eq, List.mem_of_getElem? heq, f, hf, hc⟩ hd, h⟩
    · exact ih h

theorem visitsCallees_stay (m : Machine) (p : Project) (depth : Nat) :
    (visitsCallees m p depth).Stay p := by
  induction depth with
  | zero => exact ⟨fun _ _ _ _ _ _ h => h.elim, fun _ _ _ _ h => h.elim⟩
  | succ depth ih =>
    constructor
    · rintro key n args consts calls ev ⟨env, order, -, -, h⟩
      split at h
      · exact visitsSteps_within ih h
      · exact visitsSteps_within ih h
      · exact h.elim
    · rintro n args consts ev ⟨-, env, order, -, -, h⟩
      exact visitsSteps_within ih h

/-- A run evaluates expressions of nodes that the root applies, directly or not. -/
theorem runVisits_within {sim : Sim} {rows : List Env} (h : sim.runVisits m p rows ev) :
    Within p sim.node ev := by
  induction rows generalizing sim with
  | nil => exact h.elim
  | cons inputs rows ih =>
    rcases h with ⟨env, -, h⟩ | h
    · exact visitsSteps_within (visitsCallees_stay m p m.stack) h
    · have hsame : Sim.SameNode sim (Sim.stepEnv m p inputs sim).2 := Sim.stepEnv_sameNode inputs
      have hnode := hsame.node
      rw [← Sim.step_state] at hnode
      exact hnode ▸ ih h

end

/-- An `if`, or a right-hand side of two or more conditions. -/
def IsDecision (ev : Event) : Prop :=
  (∃ cond thenBranch elseBranch, ev.2 = .ifThenElse cond thenBranch elseBranch) ∨
    ev.1.path = [] ∧ 2 ≤ (decisionConditions ev.1 ev.2).length

/-- The condition of an `if` is a site and a decision of the coverage, and a right-hand side
of two or more conditions a decision. -/
def IsRegistered (c : Coverage) (ev : Event) : Prop :=
  ((∃ cond thenBranch elseBranch, ev.2 = .ifThenElse cond thenBranch elseBranch) →
    (∃ s ∈ c.sites, s.key = ev.1.child 0) ∧ ∃ d ∈ c.decisions, d.key = ev.1.child 0) ∧
  (ev.1.path = [] → 2 ≤ (decisionConditions ev.1 ev.2).length → ∃ d ∈ c.decisions, d.key = ev.1)

section

variable {p : Project} {root n : NodeDef} {ev : Event}

theorem mem_ifConditions {site : Site} {rhs : Expr} {s : Site} {cond thenBranch elseBranch : Expr}
    (h : (s, .ifThenElse cond thenBranch elseBranch) ∈ site.subterms rhs) :
    (s.child 0, cond) ∈ ifConditions site rhs := List.mem_filterMap.mpr ⟨_, h, rfl⟩

theorem InNode.node_eq (h : InNode n ev) : ev.1.node = n.name := by
  obtain ⟨i, eq, -, hmem⟩ := h
  exact (Site.below _ _ ev hmem).1

/-- The decisions of a node are all that is needed for an expression of it. -/
theorem isRegistered_node (hev : InNode n ev) : IsRegistered ⟨nodeSites n, nodeDecisions n⟩ ev := by
  obtain ⟨i, eq, heq, hmem⟩ := hev
  obtain ⟨s, x⟩ := ev
  constructor
  · rintro ⟨cond, thenBranch, elseBranch, rfl⟩
    have hcond := mem_ifConditions hmem
    exact ⟨⟨_, mem_nodeSites.mpr ⟨i, eq, heq, _, hcond, rfl⟩, rfl⟩,
      ⟨_, mem_nodeDecisions.mpr ⟨i, eq, heq, _, List.mem_append_right _ hcond, rfl⟩, rfl⟩⟩
  · intro hpath hlength
    -- only the right-hand side itself has the empty path
    have hbelow := Site.below _ _ _ hmem
    obtain rfl : s = ⟨n.name, i, []⟩ := by
      cases s
      exact congr (congr (congrArg Site.mk hbelow.1) hbelow.2.1) hpath
    have hself := Site.self_mem_subterms ⟨n.name, i, []⟩ eq.rhs
    obtain rfl : x = eq.rhs :=
      congrArg Prod.snd (List.inj_on_of_nodup_map (Site.subterms_nodup _ _) hmem hself rfl)
    have hroots : (⟨n.name, i, []⟩, eq.rhs) ∈ decisionRoots ⟨n.name, i, []⟩ eq.rhs := by
      rw [decisionRoots, if_pos hlength]
      exact List.mem_cons_self
    exact ⟨_, mem_nodeDecisions.mpr ⟨i, eq, heq, _, hroots, rfl⟩, rfl⟩

theorem IsRegistered.mono {c c' : Coverage} (h : IsRegistered c ev)
    (hsites : ∀ s ∈ c.sites, s ∈ c'.sites) (hdecisions : ∀ d ∈ c.decisions, d ∈ c'.decisions) :
    IsRegistered c' ev := by
  constructor
  · intro hif
    obtain ⟨⟨s, hs, hkey⟩, ⟨d, hd, hkey'⟩⟩ := h.1 hif
    exact ⟨⟨s, hsites s hs, hkey⟩, ⟨d, hdecisions d hd, hkey'⟩⟩
  · intro hpath hlength
    obtain ⟨d, hd, hkey⟩ := h.2 hpath hlength
    exact ⟨d, hdecisions d hd, hkey⟩

/-- A registered decision has its node among those of the coverage. -/
theorem IsRegistered.exists_decision {c : Coverage} (h : IsRegistered c ev)
    (hdecision : IsDecision ev) : ∃ d ∈ c.decisions, d.key.node = ev.1.node := by
  rcases hdecision with hif | ⟨hpath, hlength⟩
  · obtain ⟨d, hd, hkey⟩ := (h.1 hif).2
    exact ⟨d, hd, by rw [hkey]; rfl⟩
  · obtain ⟨d, hd, hkey⟩ := h.2 hpath hlength
    exact ⟨d, hd, by rw [hkey]⟩

/-- A decision of a found node is registered just when the root calls the node. -/
theorem isRegistered_iff (hroot : p.findNode root.name = some root) (hn : p.findNode n.name = some n)
    (hev : InNode n ev) (hdecision : IsDecision ev) :
    IsRegistered (enableCoverage p root) ev ↔ Called p root n := by
  obtain ⟨hsites, hdecisions⟩ := enableCoverage_registered hroot
  constructor
  · intro h
    obtain ⟨d, hd, hkey⟩ := h.exists_decision hdecision
    obtain ⟨k, hk, hcalled, hmem⟩ := (hdecisions d).mp hd
    rw [node_of_mem_nodeDecisions hmem, hev.node_eq] at hkey
    rw [hkey, hn] at hk
    obtain rfl := Option.some.inj hk
    exact hcalled
  · intro hcall
    exact (isRegistered_node hev).mono (fun s hs => (hsites s).mpr ⟨n, hn, hcall, hs⟩)
      fun d hd => (hdecisions d).mpr ⟨n, hn, hcall, hd⟩

end

theorem CallsNode.nodeCalls {p : Project} {n c : NodeDef} (h : CallsNode p n c) : NodeCalls p n c := by
  obtain ⟨eq, heq, f, hf, hc⟩ := h
  obtain ⟨x, hx, hname⟩ := List.mem_filterMap.mp hf
  refine ⟨eq, heq, f, List.mem_filterMap.mpr ⟨x, hx, ?_⟩, hc⟩
  cases x with
  | call callee args => exact hname
  | _ => cases hname

/-- What is found under a name by calls and iterators is found under its own name. -/
theorem findNode_of_reaches {p : Project} {root n : NodeDef}
    (hroot : p.findNode root.name = some root)
    (h : Relation.ReflTransGen (NodeCalls p) root n) : p.findNode n.name = some n := by
  cases h with
  | refl => exact hroot
  | tail _ hlast =>
    obtain ⟨-, -, f, -, hf⟩ := hlast
    exact Project.findNode_name hf

/-- In every run the decisions that are evaluated are those of nodes the root applies, by
calls and iterators; all of them are registered just when those evaluated are in nodes that
it calls, which is so where calls alone lead to every node with decisions. -/
theorem coverage_sites (m : Machine) (p : Project) (name : String) (sim : Sim) (rows : List Env)
    (h : Sim.new m p name = .ok sim) :
    (∀ ev, sim.runVisits m p rows ev →
      ∃ n, Relation.ReflTransGen (NodeCalls p) sim.node n ∧ InNode n ev) ∧
    ((∀ ev, sim.runVisits m p rows ev → IsDecision ev →
        IsRegistered (enableCoverage p sim.node) ev) ↔
      ∀ ev, sim.runVisits m p rows ev → IsDecision ev →
        ∃ n, InNode n ev ∧ Called p sim.node n) ∧
    ((∀ n, Relation.ReflTransGen (NodeCalls p) sim.node n → nodeDecisions n ≠ [] →
        Called p sim.node n) →
      ∀ ev, sim.runVisits m p rows ev → IsDecision ev →
        IsRegistered (enableCoverage p sim.node) ev) := by
  have hroot : p.findNode sim.node.name = some sim.node :=
    Project.findNode_name (Sim.new_eq_ok h).1
  have hlies : ∀ ev, sim.runVisits m p rows ev →
      ∃ n, Relation.ReflTransGen (NodeCalls p) sim.node n ∧ InNode n ev := fun ev => runVisits_within
  have hiff : (∀ ev, sim.runVisits m p rows ev → IsDecision ev →
        IsRegistered (enableCoverage p sim.node) ev) ↔
      ∀ ev, sim.runVisits m p rows ev → IsDecision ev →
        ∃ n, InNode n ev ∧ Called p sim.node n := by
    refine forall₃_congr fun ev hev hdecision => ?_
    obtain ⟨n, hreach, hin⟩ := hlies ev hev
    have hn := findNode_of_reaches hroot hreach
    rw [isRegistered_iff hroot hn hin hdecision]
    constructor
    · exact fun hcalled => ⟨n, hin, hcalled⟩
    · rintro ⟨k, hink, hcalled⟩
      have hk := findNode_of_reaches hroot
        (Relation.ReflTransGen.mono (fun _ _ => CallsNode.nodeCalls) _ _ hcalled)
      rw [← hink.node_eq, hin.node_eq, hn] at hk
      obtain rfl := Option.some.inj hk
      exact hcalled
  refine ⟨hlies, hiff, fun hcalls => hiff.mpr fun ev hev hdecision => ?_⟩
  obtain ⟨n, hreach, hin⟩ := hlies ev hev
  refine ⟨n, hin, hcalls n hreach fun hnil => ?_⟩
  obtain ⟨d, hd, -⟩ := (isRegistered_node hin).exists_decision hdecision
  rw [hnil] at hd
  cases hd

/-- A function with an `if` that the root only maps over an array. -/
def mappedProject : Project where
  packages := [{
    name := "main"
    nodes := [
      { name := "F", kind := .function, inputs := [⟨"a", .bool⟩], outputs := [⟨"y", .int32⟩]
        locals := []
        equations := [⟨["y"], .ifThenElse (.var "a") (.const (.int 1)) (.const (.int 2))⟩] },
      { name := "N", kind := .operator, inputs := [⟨"x", .bool⟩], outputs := [⟨"ys", .array .int32 1⟩]
        locals := [], equations := [⟨["ys"], .iterate .map "F" none [.array [.var "x"]]⟩] }] }]

def mappedEvent : Event :=
  (⟨"F", 0, []⟩, .ifThenElse (.var "a") (.const (.int 1)) (.const (.int 2)))

theorem coverage_sites_mapped :
    ∃ sim, Sim.new ⟨true, 10⟩ mappedProject "N" = .ok sim ∧
      (∀ ev, sim.runVisits ⟨true, 10⟩ mappedProject [fun _ => some (.bool true)] ev →
        ∃ n, Relation.ReflTransGen (NodeCalls mappedProject) sim.node n ∧ InNode n ev) ∧
      ((∀ ev, sim.runVisits ⟨true, 10⟩ mappedProject [fun _ => some (.bool true)] ev →
          IsDecision ev → IsRegistered (enableCoverage mappedProject sim.node) ev) ↔
        ∀ ev, sim.runVisits ⟨true, 10⟩ mappedProject [fun _ => some (.bool true)] ev →
          IsDecision ev → ∃ n, InNode n ev ∧ Called mappedProject sim.node n) := by
  have hsites := coverage_sites ⟨true, 10⟩ mappedProject "N" _ [fun _ => some (.bool true)] rfl
  exact ⟨_, rfl, hsites.1, hsites.2.1⟩

/-- The `if` of a mapped function is evaluated and not registered. -/
theorem mapped_unregistered :
    ∃ sim, Sim.new ⟨true, 10⟩ mappedProject "N" = .ok sim ∧
      ∃ ev, sim.runVisits ⟨true, 10⟩ mappedProject [fun _ => some (.bool true)] ev ∧
        IsDecision ev ∧ ¬ IsRegistered (enableCoverage mappedProject sim.node) ev := by
  refine ⟨_, rfl, mappedEvent, ?_, .inl ⟨_, _, _, rfl⟩, ?_⟩
  · refine .inl ⟨_, rfl, .inl ⟨_, rfl, rfl, .inr ?_⟩⟩
    -- the arrays are evaluated, and the function is applied to the only row
    refine .inr ⟨[[.bool true]], _, rfl, .inl ?_⟩
    exact ⟨rfl, _, _, rfl, rfl, .inl ⟨_, rfl, rfl, .inl rfl⟩⟩
  · intro h
    obtain ⟨d, hd, -⟩ := h.exists_decision (.inl ⟨_, _, _, rfl⟩)
    cases hd

end OpenLustre.Simulator
