import OpenLustre.Sim.Observe

/-! Steps that are refused, and what they leave of the simulator. -/

namespace OpenLustre.Simulator

open OpenLustre.Ir OpenLustre.ContractIr

section

variable (m : Machine) (p : Project)

/-- A cycle of a call that stops at the door of an operator. -/
def enterFunction (cs : Callees) (n : NodeDef) (args : List Value) (consts : Env) :
    EvalM Value := do
  let env ← .lift (calleeEnv m p n args consts)
  let order ← .lift (bodyOrder n)
  match n.kind with
  | .function => do
    let env ← equationSteps m p cs n (clocksOf n) .initial order env
    pure (extractOutput n env)
  | _ => .fail (.panic .unreachable)

/-- Calls to a nesting depth that enter functions only. -/
def doors : Nat → Callees
  | 0 => callees m p 0
  | depth + 1 =>
    ⟨fun _ => enterFunction m p (doors depth), callFunctionValues m p (callees m p depth)⟩

end

/-- The evaluation was stopped at a door, or the program stopped itself. -/
def Stopped (e : Fault) : Prop := ∃ why, e = .panic why

section

variable {m : Machine} {p : Project} {cs cs' : Callees} {fr : Frame}

theorem until_discard {x y : EvalM Value} (h : Stateful.Until Stopped x y) :
    Stateful.Until Stopped (discard x) (discard y) := by
  intro s
  unfold discard
  rcases h s with ⟨e, he, why, rfl⟩ | heq
  · obtain ⟨s', hx⟩ : ∃ s', x s = (.error (.panic why), s') := ⟨(x s).2, Prod.ext he rfl⟩
    rw [hx]
    exact .inl ⟨_, rfl, why, rfl⟩
  · rw [heq]
    exact .inr rfl

theorem until_stepUntaken {x y : EvalM Value} (h : Stateful.Until Stopped x y) (other : Expr) :
    Stateful.Until Stopped (stepUntaken other x) (stepUntaken other y) := by
  unfold stepUntaken
  split
  · exact until_discard h
  · exact .refl _

theorem until_evalList {site : Site} {es : List Expr} {k : Nat}
    (h : ∀ e ∈ es, ∀ site, Stateful.Until Stopped (eval m p cs fr site e) (eval m p cs' fr site e)) :
    Stateful.Until Stopped (evalList m p cs fr site k es) (evalList m p cs' fr site k es) := by
  induction es generalizing k with
  | nil => exact .refl _
  | cons e es ih =>
    refine (h e List.mem_cons_self _).bind fun v => ?_
    exact (ih fun e he => h e (List.mem_cons_of_mem _ he)).bind fun vs => .refl _

theorem until_evalFields {site : Site} {fields : List (String × Expr)} {k : Nat}
    {r : List (String × Value)}
    (h : ∀ e ∈ fields.map (·.2), ∀ site,
      Stateful.Until Stopped (eval m p cs fr site e) (eval m p cs' fr site e)) :
    Stateful.Until Stopped (evalFields m p cs fr site k r fields)
      (evalFields m p cs' fr site k r fields) := by
  induction fields generalizing k r with
  | nil => exact .refl _
  | cons f fields ih =>
    refine (h f.2 List.mem_cons_self _).bind fun v => ?_
    exact ih fun e he => h e (List.mem_cons_of_mem _ he)

theorem until_evalArrays {site : Site} {es : List Expr} {k : Nat}
    (h : ∀ e ∈ es, ∀ site, Stateful.Until Stopped (eval m p cs fr site e) (eval m p cs' fr site e)) :
    Stateful.Until Stopped (evalArrays m p cs fr site k es) (evalArrays m p cs' fr site k es) := by
  induction es generalizing k with
  | nil => exact .refl _
  | cons e es ih =>
    refine (h e List.mem_cons_self _).bind fun v => ?_
    refine (Stateful.Until.refl _).bind fun xs => ?_
    exact (ih fun e he => h e (List.mem_cons_of_mem _ he)).bind fun xss => .refl _

/-- Calls that do what others do, unless these stop. -/
structure CalleesUntil (cs cs' : Callees) : Prop where
  stepInstance : ∀ site n args consts,
    Stateful.Until Stopped (cs.stepInstance site n args consts) (cs'.stepInstance site n args consts)
  callFunctionValues : cs'.callFunctionValues = cs.callFunctionValues

theorem until_eval (hcs : CalleesUntil cs cs') (e : Expr) : ∀ site,
    Stateful.Until Stopped (eval m p cs fr site e) (eval m p cs' fr site e) := by
  induction e using Expr.children_induct with
  | h e ih =>
  intro site
  cases e with
  | const lit => exact .refl _
  | var name => exact .refl _
  | unary op arg => exact (ih arg (by simp [Expr.children]) _).bind fun v => .refl _
  | binary op lhs rhs =>
    refine (ih lhs (by simp [Expr.children]) _).bind fun l => ?_
    exact (ih rhs (by simp [Expr.children]) _).bind fun r => .refl _
  | ifThenElse cond thenBranch elseBranch =>
    have hthen := ih thenBranch (by simp [Expr.children])
    have helse := ih elseBranch (by simp [Expr.children])
    refine (ih cond (by simp [Expr.children]) _).bind fun c => ?_
    refine (Stateful.Until.refl _).bind fun c => ?_
    cases c with
    | true =>
      exact (hthen _).bind fun v => (until_stepUntaken (helse _) _).bind fun _ => .refl _
    | false =>
      exact (helse _).bind fun v => (until_stepUntaken (hthen _) _).bind fun _ => .refl _
  | pre arg => exact .refl _
  | arrow init body =>
    have hinit := ih init (by simp [Expr.children])
    have hbody := ih body (by simp [Expr.children])
    simp only [eval]
    split
    · exact (hinit _).bind fun v => (until_stepUntaken (hbody _) _).bind fun _ => .refl _
    · exact (hbody _).bind fun v => (until_stepUntaken (hinit _) _).bind fun _ => .refl _
  | when arg clock on => exact ih arg (by simp [Expr.children]) _
  | merge clock onTrue onFalse =>
    simp only [eval]
    split
    · exact (ih onTrue (by simp [Expr.children]) _).bind fun v => .refl _
    · exact (ih onFalse (by simp [Expr.children]) _).bind fun v => .refl _
    · exact .refl _
    · exact .refl _
  | cast target arg => exact (ih arg (by simp [Expr.children]) _).bind fun v => .refl _
  | field base field => exact (ih base (by simp [Expr.children]) _).bind fun v => .refl _
  | index base index =>
    refine (ih base (by simp [Expr.children]) _).bind fun b => ?_
    exact (ih index (by simp [Expr.children]) _).bind fun i => .refl _
  | tuple items | array items =>
    exact (until_evalList fun e he => ih e (by simpa [Expr.children] using he)).bind fun vs => .refl _
  | struct ty fields =>
    exact (until_evalFields fun e he => ih e (by simpa [Expr.children] using he)).bind fun r => .refl _
  | call node args =>
    have hargs : ∀ e ∈ args, ∀ site,
        Stateful.Until Stopped (eval m p cs fr site e) (eval m p cs' fr site e) :=
      fun e he => ih e (by simpa [Expr.children] using he)
    by_cases hnode : node = condact ∧ (p.findNode node).isNone
    · rcases args with _ | ⟨clock, _ | ⟨call, defaults⟩⟩
      · simp only [eval, if_pos hnode]
        exact .refl _
      · simp only [eval, if_pos hnode]
        exact .refl _
      · rw [eval_condact hnode, eval_condact hnode]
        refine (hargs clock (by simp) _).bind fun c => ?_
        unfold decided
        refine (Stateful.Until.refl _).bind fun on => ?_
        cases on with
        | true => exact (hargs call (by simp) _).bind fun v => .refl _
        | false =>
          refine (Stateful.Until.refl _).bind fun calls => ?_
          split
          · exact .refl _
          · exact (until_evalList fun e he => hargs e (by simp [he])).bind fun vs => .refl _
    · rw [eval_call hnode, eval_call hnode]
      refine (Stateful.Until.refl _).bind fun c => ?_
      exact (until_evalList hargs).bind fun vs => hcs.stepInstance _ _ _ _
  | iterate kind node init arrays =>
    have harrays {k : Nat} : Stateful.Until Stopped (evalArrays m p cs fr site k arrays)
        (evalArrays m p cs' fr site k arrays) :=
      until_evalArrays fun e he => ih e (by simp [Expr.children, he])
    simp only [eval]
    refine (Stateful.Until.refl _).bind fun f => harrays.bind fun arrs => ?_
    refine (Stateful.Until.refl _).bind fun rows => ?_
    cases kind with
    | map =>
      simp only [hcs.callFunctionValues]
      exact .refl _
    | fold =>
      cases init with
      | none => exact .refl _
      | some seed =>
        refine (ih seed (by simp [Expr.children]) _).bind fun acc => ?_
        simp only [foldFunction, hcs.callFunctionValues]
        exact .refl _

theorem until_equationStep (hcs : CalleesUntil cs cs') (n : NodeDef) (info : ClockInfo)
    (state : State) (env : Env) (i : Nat) :
    Stateful.Until Stopped (equationStep m p cs n info state env i)
      (equationStep m p cs' n info state env i) := by
  unfold equationStep
  split
  · exact .refl _
  · refine (Stateful.Until.refl _).bind fun active => ?_
    cases active with
    | true => exact (until_eval hcs _ _).bind fun v => .refl _
    | false => exact .refl _

theorem until_equationSteps (hcs : CalleesUntil cs cs') (n : NodeDef) (info : ClockInfo)
    (state : State) (order : List Nat) (env : Env) :
    Stateful.Until Stopped (equationSteps m p cs n info state order env)
      (equationSteps m p cs' n info state order env) := by
  induction order generalizing env with
  | nil => exact .refl _
  | cons i order ih => exact (until_equationStep hcs n info state env i).bind ih

theorem until_enterFunction (hcs : CalleesUntil cs cs') (site : Site) (n : NodeDef)
    (args : List Value) (consts : Env) :
    Stateful.Until Stopped (enterFunction m p cs n args consts)
      (stepInstance m p cs' site n args consts) := by
  unfold enterFunction stepInstance
  refine (Stateful.Until.refl _).bind fun env => (Stateful.Until.refl _).bind fun order => ?_
  cases n.kind with
  | function => exact (until_equationSteps hcs n _ _ _ _).bind fun env => .refl _
  | operator => exact .stop ⟨_, rfl⟩ _
  | imported => exact .refl _

/-- A step that meets no door does what it does anyway. -/
theorem doors_until (m : Machine) (p : Project) (depth : Nat) :
    CalleesUntil (doors m p depth) (callees m p depth) := by
  induction depth with
  | zero => exact ⟨fun _ _ _ _ => .refl _, rfl⟩
  | succ depth ih => exact ⟨fun site n args consts => until_enterFunction ih site n args consts, rfl⟩

end

/-- An error is returned. -/
def isRefused {α : Type} : Except Fault α → Bool
  | .error (.error _) => true
  | _ => false

section

variable (m : Machine) (p : Project)

/-- The cycle fails before it enters an operator, renews the outputs of a conditional
activation or counts a clock. -/
def Sim.FailsOutside (sim : Sim) (inputs : Env) : Prop :=
  match sim.seed m p inputs with
  | .error _ => True
  | .ok env =>
    match equationSteps m p (doors m p m.stack) sim.node sim.clockInfo sim.state sim.eqOrder env
      sim.callStates with
    | (.error e, calls) => ¬ Stopped e ∧ calls = sim.callStates
    | (.ok env, calls) => calls = sim.callStates ∧
        ∃ e, tickChains env sim.clockInfo.chains sim.state.clockTicks
          = (.error e, sim.state.clockTicks)

theorem Sim.FailsOutside.stepEnv {m : Machine} {p : Project} {sim : Sim} {inputs : Env}
    (h : sim.FailsOutside m p inputs) : ∃ e, Sim.stepEnv m p inputs sim = (.error e, sim) := by
  unfold FailsOutside at h
  unfold Sim.stepEnv
  cases hseed : sim.seed m p inputs with
  | error e => exact ⟨e, rfl⟩
  | ok env =>
    have hsteps : Stateful.Until Stopped
        (equationSteps m p (doors m p m.stack) sim.node sim.clockInfo sim.state sim.eqOrder env)
        (equationSteps m p (callees m p m.stack) sim.node sim.clockInfo sim.state sim.eqOrder env) :=
      until_equationSteps (doors_until m p m.stack) _ _ _ _ _
    have huntil := hsteps sim.callStates
    rw [hseed] at h
    dsimp only at h ⊢
    rcases hdoors : equationSteps m p (doors m p m.stack) sim.node sim.clockInfo sim.state
      sim.eqOrder env sim.callStates with ⟨e | env', calls⟩
    · rw [hdoors] at h huntil
      obtain ⟨hnot, rfl⟩ := h
      have hrun := huntil.resolve_left fun ⟨e', he, hstop⟩ => by
        cases he
        exact hnot hstop
      rw [hrun]
      exact ⟨e, rfl⟩
    · rw [hdoors] at h huntil
      obtain ⟨rfl, e, hticks⟩ := h
      have hrun := huntil.resolve_left fun ⟨e', he, _⟩ => by cases he
      rw [hrun]
      simp only [hticks]
      obtain ⟨node, ⟨cycle, prev, ticks, childCalls⟩, calls, consts, order, info⟩ := sim
      exact ⟨e, rfl⟩

end

/-- A cycle that is asked of a simulator: its outputs, or everything observed. -/
inductive Submission
  | step (inputs : Env)
  | stepObserved (inputs : Env)

def Submission.inputs : Submission → Env
  | step inputs => inputs
  | stepObserved inputs => inputs

namespace MonitoredSim

variable (m : Machine) (p : Project)

/-- One cycle, as it is asked for. -/
def submit : Submission → Stateful Fault MonitoredSim (List (String × Value) ⊕ Observed)
  | .step inputs, ms =>
    let (r, sim) := Sim.step m p inputs ms.sim
    (r.map .inl, { ms with sim := sim })
  | .stepObserved inputs, ms =>
    let (r, ms) := stepObserved m p inputs ms
    (r.map .inr, ms)

/-- A cycle of a run: the simulator before it, what was returned, and the simulator after. -/
structure Cycle where
  before : MonitoredSim
  result : Except Fault (List (String × Value) ⊕ Observed)
  after : MonitoredSim

def run : MonitoredSim → List Submission → List Cycle
  | _, [] => []
  | ms, s :: rest =>
    let (r, ms') := submit m p s ms
    ⟨ms, r, ms'⟩ :: run ms' rest

/-- The submissions that are not refused. -/
def accepted : MonitoredSim → List Submission → List Submission
  | _, [] => []
  | ms, s :: rest =>
    let (r, ms') := submit m p s ms
    if isRefused r then accepted ms' rest else s :: accepted ms' rest

/-- Every cycle of the run that is refused fails outside of the instances. -/
def RefusedOutside : MonitoredSim → List Submission → Prop
  | _, [] => True
  | ms, s :: rest =>
    (isRefused (submit m p s ms).1 → ms.sim.FailsOutside m p s.inputs) ∧
      RefusedOutside (submit m p s ms).2 rest

variable {m p} {ms : MonitoredSim}

theorem submit_of_failsOutside {s : Submission} (h : ms.sim.FailsOutside m p s.inputs) :
    (submit m p s ms).2 = ms := by
  obtain ⟨e, he⟩ := h.stepEnv
  cases s with
  | step inputs =>
    have hstep : (Sim.step m p inputs ms.sim).2 = ms.sim := by
      rw [Sim.step_state]
      exact congrArg Prod.snd he
    simp only [submit, hstep]
  | stepObserved inputs =>
    have hstep : Sim.stepEnv m p inputs ms.sim = (.error e, ms.sim) := he
    simp only [submit, stepObserved, hstep]

/-- A run in which every refused cycle fails outside of the instances: each of them leaves
the simulator as it was, and the others go as if these had never been submitted. -/
theorem refused_cycles_vanish {subs : List Submission} (h : RefusedOutside m p ms subs) :
    (∀ c ∈ run m p ms subs, isRefused c.result → c.after = c.before) ∧
      (run m p ms subs).filter (fun c => !isRefused c.result) = run m p ms (accepted m p ms subs) := by
  induction subs generalizing ms with
  | nil => simp [run, accepted]
  | cons s rest ih =>
    obtain ⟨hself, hrest⟩ := h
    obtain ⟨hkept, hothers⟩ := ih hrest
    have hsame (hrefused : isRefused (submit m p s ms).1) : (submit m p s ms).2 = ms :=
      submit_of_failsOutside (hself hrefused)
    constructor
    · intro c hc hrefused
      rcases List.mem_cons.mp hc with rfl | hc
      · exact hsame hrefused
      · exact hkept c hc hrefused
    · rw [run, accepted, List.filter_cons]
      by_cases hrefused : isRefused (submit m p s ms).1
      · have hms := hsame hrefused
        rw [hms] at hothers
        simpa [hrefused, hms] using hothers
      · simpa [hrefused, run] using hothers

end MonitoredSim

/-- `o = x -> pre o + x`. -/
def summing : NodeDef where
  name := "Sum"
  kind := .operator
  inputs := [⟨"x", .int32⟩]
  outputs := [⟨"o", .int32⟩]
  locals := []
  equations := [⟨["o"], .arrow (.var "x") (.binary .add (.pre (.var "o")) (.var "x"))⟩]

def sumEquation : Equation := ⟨["y"], .call "Sum" [.var "i"]⟩

/-- `z = [1; 2][i]`, which is refused unless `i` is 0 or 1. -/
def indexEquation : Equation :=
  ⟨["z"], .index (.array [.const (.int 1), .const (.int 2)]) (.var "i")⟩

/-- A node that sums its input and indexes by it. -/
def indexing (equations : List Equation) : NodeDef where
  name := "N"
  kind := .operator
  inputs := [⟨"i", .int32⟩]
  outputs := [⟨"y", .int32⟩, ⟨"z", .int32⟩]
  locals := []
  equations := equations

def indexingProject (equations : List Equation) : Project :=
  { packages := [{ name := "main", nodes := [summing, indexing equations] }] }

def indexRow (i : Int) : Submission := .stepObserved (Env.set (fun _ => none) "i" (.int i))

/-- The row of 1, with this sum. -/
def summed (y : Int) : Observed where
  values := [("i", .int 1), ("y", .int y), ("z", .int 2)]
  activeModes := []
  violations := []
  monitored := false

namespace MonitoredSim

/-- The index is refused before the sum is entered. -/
theorem refused_index_vanishes :
    let p := indexingProject [indexEquation, sumEquation]
    ∃ ms, new ⟨true, 8⟩ p "N" = .ok ms ∧
      (∀ c ∈ run ⟨true, 8⟩ p ms [indexRow 5, indexRow 1],
        isRefused c.result → c.after = c.before) ∧
      (run ⟨true, 8⟩ p ms [indexRow 5, indexRow 1]).filter (fun c => !isRefused c.result)
        = run ⟨true, 8⟩ p ms (accepted ⟨true, 8⟩ p ms [indexRow 5, indexRow 1]) := by
  intro p
  refine ⟨_, rfl, refused_cycles_vanish ⟨fun _ => ⟨nofun, rfl⟩, nofun, trivial⟩⟩

/-- The index is refused, and the sum has counted it: the next row is answered with 6
instead of 1. -/
theorem exists_refused_summed :
    let p := indexingProject [sumEquation, indexEquation]
    ∃ ms, new ⟨true, 8⟩ p "N" = .ok ms ∧ isRefused (submit ⟨true, 8⟩ p (indexRow 5) ms).1 ∧
      (submit ⟨true, 8⟩ p (indexRow 5) ms).2 ≠ ms ∧
      (submit ⟨true, 8⟩ p (indexRow 1) (submit ⟨true, 8⟩ p (indexRow 5) ms).2).1
        = .ok (.inr (summed 6)) ∧
      (submit ⟨true, 8⟩ p (indexRow 1) ms).1 = .ok (.inr (summed 1)) := by
  intro p
  have hdiffer {ms ms' : MonitoredSim}
      (h : (submit ⟨true, 8⟩ p (indexRow 1) ms').1 = .ok (.inr (summed 6)))
      (h' : (submit ⟨true, 8⟩ p (indexRow 1) ms).1 = .ok (.inr (summed 1))) : ms' ≠ ms := by
    rintro rfl
    have hsame := h.symm.trans h'
    simp [summed] at hsame
  exact ⟨_, rfl, rfl, hdiffer rfl rfl, rfl, rfl⟩

end MonitoredSim

end OpenLustre.Simulator
