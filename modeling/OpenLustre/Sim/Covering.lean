import OpenLustre.Sim.Observe
import OpenLustre.Sim.Transparency

/-! What coverage a run ends with: the decisions registered when it was switched on, and
no others. -/

namespace OpenLustre.Simulator

open OpenLustre.Ir OpenLustre.LustreEmit Stateful

/-- What a site is, whatever was seen there. -/
def DecisionSite.identity (s : DecisionSite) : Site × String × String × String :=
  (s.key, s.node, s.context, s.condition)

def DecisionData.identity (d : DecisionData) :
    Site × String × String × String × List (Site × String) :=
  (d.key, d.node, d.context, d.decisionText, d.conditions)

namespace Coverage

/-- The sites and decisions of a coverage, whatever was seen there. -/
structure Same (c c' : Coverage) : Prop where
  sites : c'.sites.map DecisionSite.identity = c.sites.map DecisionSite.identity
  decisions : c'.decisions.map DecisionData.identity = c.decisions.map DecisionData.identity

theorem Same.refl (c : Coverage) : Same c c := ⟨rfl, rfl⟩

theorem Same.trans {a b c : Coverage} (hab : Same a b) (hbc : Same b c) : Same a c :=
  ⟨hbc.sites.trans hab.sites, hbc.decisions.trans hab.decisions⟩

theorem same_mark (c : Coverage) (key : Site) (outcome : Bool) : Same c (c.mark key outcome) := by
  constructor
  · simp only [mark, List.map_map]
    apply List.map_congr_left
    intro s _
    by_cases hkey : s.key = key <;> cases outcome <;> simp [hkey, DecisionSite.identity]
  · rfl

theorem same_recordTrial (c : Coverage) (root : Site) (obs : Observations) (outcome : Bool) :
    Same c (c.recordTrial root obs outcome) := by
  constructor
  · rfl
  · simp only [recordTrial, List.map_map]
    apply List.map_congr_left
    intro d _
    simp only [Function.comp_apply]
    split
    · split <;> rfl
    · rfl

end Coverage

/-- A computation that registers nothing and forgets nothing. -/
abbrev Covers {σ α : Type} (y : Stateful Fault (σ × Coverage) α) : Prop := Keeping Coverage.Same y

namespace Covers

variable {σ α β : Type} {y : Stateful Fault (σ × Coverage) α}

theorem lift (x : Except Fault α) : Covers (.lift x : Stateful Fault (σ × Coverage) α) :=
  Keeping.lift .refl x

theorem pure (a : α) : Covers (Pure.pure a : Stateful Fault (σ × Coverage) α) :=
  Keeping.pure .refl a

theorem fail (e : Fault) : Covers (.fail e : Stateful Fault (σ × Coverage) α) :=
  Keeping.fail .refl e

theorem unrecorded (x : Stateful Fault σ α) : Covers (Stateful.unrecorded x) :=
  Keeping.unrecorded .refl x

theorem bind {f : α → Stateful Fault (σ × Coverage) β} (hy : Covers y) (hf : ∀ a, Covers (f a)) :
    Covers (y >>= f) := Keeping.bind .trans hy hf

end Covers

/-- An expression that covers nothing new, evaluated either way. -/
structure Evaluation.Covered (ev : Evaluation) : Prop where
  value : Covers ev.value
  decision : Covers ev.decision

namespace Evaluation.Covered

theorem atomic {site : Site} {y : CovM Value} (h : Covers y) : (Evaluation.atomic site y).Covered where
  value := h
  decision := by
    apply h.bind
    intro v
    cases v.asBool with
    | some b => exact .pure _
    | none => exact .lift _

theorem connected {f : Bool → Bool → Bool} {lhs rhs : Evaluation} {value : CovM Value}
    (hl : lhs.Covered) (hr : rhs.Covered) (h : Covers value) :
    (Evaluation.connected f lhs rhs value).Covered where
  value := h
  decision := hl.decision.bind fun _ => hr.decision.bind fun _ => .pure _

theorem negated {arg : Evaluation} {value : CovM Value} (ha : arg.Covered) (h : Covers value) :
    (Evaluation.negated arg value).Covered where
  value := h
  decision := ha.decision.bind fun _ => .pure _

end Evaluation.Covered

section

variable {m : Machine} {p : Project} {cs : Callees} {ccs : CovCallees} {fr : Frame}

structure CovCallees.Covered (ccs : CovCallees) : Prop where
  stepInstance : ∀ site n args consts, Covers (ccs.stepInstance site n args consts)
  callFunctionValues : ∀ n args consts, Covers (ccs.callFunctionValues n args consts)

theorem mapCov_covers (hcalls : ccs.Covered) (f : NodeDef) (rows : List (List Value)) :
    Covers (mapCov p ccs fr f rows) := by
  induction rows with
  | nil => exact .pure _
  | cons row rows ih =>
    exact (hcalls.callFunctionValues f row _).bind fun _ => ih.bind fun _ => .pure _

theorem foldCov_covers (hcalls : ccs.Covered) (f : NodeDef) (acc : Value) (elems : List Value) :
    Covers (foldCov p ccs fr f acc elems) := by
  induction elems generalizing acc with
  | nil => exact .pure _
  | cons elem elems ih => exact (hcalls.callFunctionValues f [acc, elem] _).bind fun v => ih v

section

variable {es : List Expr}
  (h : ∀ e ∈ es, ∀ site, (evaluation m p cs ccs fr site e).Covered)
include h

theorem evaluationList_covers (site : Site) (k : Nat) :
    Covers (evaluationList m p cs ccs fr site k es) := by
  induction es generalizing k with
  | nil => exact .pure _
  | cons e es ih =>
    obtain ⟨he, hes⟩ := List.forall_mem_cons.mp h
    exact (he _).value.bind fun _ => (ih hes (k + 1)).bind fun _ => .pure _

theorem evaluationArrays_covers (site : Site) (k : Nat) :
    Covers (evaluationArrays m p cs ccs fr site k es) := by
  induction es generalizing k with
  | nil => exact .pure _
  | cons e es ih =>
    obtain ⟨he, hes⟩ := List.forall_mem_cons.mp h
    apply (he _).value.bind
    intro v
    exact (Covers.lift _).bind fun _ => (ih hes (k + 1)).bind fun _ => .pure _

end

theorem evaluationFields_covers {fields : List (String × Expr)}
    (h : ∀ f ∈ fields, ∀ site, (evaluation m p cs ccs fr site f.2).Covered) (site : Site) (k : Nat)
    (values : List (String × Value)) :
    Covers (evaluationFields m p cs ccs fr site k values fields) := by
  induction fields generalizing k values with
  | nil => exact .pure _
  | cons f fields ih =>
    obtain ⟨hf, hfields⟩ := List.forall_mem_cons.mp h
    exact (hf _).value.bind fun _ => ih hfields (k + 1) _

/-- A branch is evaluated, and the other one stepped for its effect. -/
theorem branch_covers {y : CovM Value} (site : Site) (other : Expr) (h : Covers y) :
    Covers (y >>= fun v => stepUntakenCov m p cs fr site other >>= fun _ =>
      pure (commonReal p fr.env v other)) :=
  h.bind fun _ => (Covers.unrecorded _).bind fun _ => .pure _

theorem evaluation_covered (hcalls : ccs.Covered) (e : Expr) (site : Site) :
    (evaluation m p cs ccs fr site e).Covered := by
  induction e generalizing site with
  | const lit => exact .atomic (.pure _)
  | var name => exact .atomic (.lift _)
  | unary op arg ih =>
    cases op with
    | not => exact .negated (ih _) ((ih _).value.bind fun _ => .lift _)
    | neg => exact .atomic ((ih _).value.bind fun _ => .lift _)
  | binary op lhs rhs ihl ihr =>
    have hvalue : Covers (do
        let a ← (evaluation m p cs ccs fr (site.child 0) lhs).value
        let b ← (evaluation m p cs ccs fr (site.child 1) rhs).value
        .lift (evalBinary m op a b)) :=
      (ihl _).value.bind fun _ => (ihr _).value.bind fun _ => .lift _
    simp only [evaluation]
    cases connective op with
    | some f => exact .connected (ihl _) (ihr _) hvalue
    | none => exact .atomic hvalue
  | ifThenElse cond thenBranch elseBranch ihc iht ihe =>
    apply Evaluation.Covered.atomic
    apply (ihc _).decision.bind
    rintro ⟨outcome, obs⟩
    have hrecord : Covers (σ := Calls) (.modifyRecord fun c =>
        (c.mark (site.child 0) outcome).recordTrial (site.child 0) obs outcome) :=
      .modifyRecord fun c => (c.same_mark _ outcome).trans (Coverage.same_recordTrial _ _ obs outcome)
    apply hrecord.bind
    intro _
    cases outcome with
    | true => exact branch_covers _ _ (iht _).value
    | false => exact branch_covers _ _ (ihe _).value
  | pre arg ih => exact .atomic (.lift _)
  | arrow init body ihi ihb =>
    simp only [evaluation]
    apply Evaluation.Covered.atomic
    split
    · exact branch_covers _ _ (ihi _).value
    · exact branch_covers _ _ (ihb _).value
  | call node args ih =>
    by_cases hcondact : node = condact ∧ (p.findNode node).isNone
    · rcases args with _ | ⟨clock, _ | ⟨call, defaults⟩⟩
      · simp only [evaluation, if_pos hcondact]
        exact .atomic (.lift _)
      · simp only [evaluation, if_pos hcondact]
        exact .atomic (.lift _)
      · obtain ⟨ihclock, ih⟩ := List.forall_mem_cons.mp ih
        obtain ⟨ihcall, ih⟩ := List.forall_mem_cons.mp ih
        simp only [evaluation, if_pos hcondact]
        apply Evaluation.Covered.atomic
        apply (ihclock _).value.bind
        intro c
        apply (Covers.lift _).bind
        intro on
        cases on with
        | true =>
          exact (ihcall _).value.bind fun _ => (Covers.unrecorded _).bind fun _ => .pure _
        | false =>
          apply (Covers.unrecorded _).bind
          intro calls
          cases lastOutputs site calls with
          | some v => exact .pure _
          | none =>
            apply (evaluationList_covers ih _ _).bind
            intro vs
            rcases vs with _ | ⟨v, _ | ⟨w, ws⟩⟩ <;> exact .pure _
    · rw [evaluation_call hcondact]
      apply Evaluation.Covered.atomic
      apply (Covers.lift _).bind
      intro n
      exact (evaluationList_covers ih _ _).bind fun vs => hcalls.stepInstance site n vs fr.env
  | field base field ih => exact .atomic ((ih _).value.bind fun _ => .lift _)
  | index base index ihb ihi =>
    exact .atomic ((ihb _).value.bind fun _ => (ihi _).value.bind fun _ => .lift _)
  | tuple items ih => exact .atomic ((evaluationList_covers ih _ _).bind fun _ => .pure _)
  | array items ih => exact .atomic ((evaluationList_covers ih _ _).bind fun _ => .pure _)
  | struct ty fields ih => exact .atomic ((evaluationFields_covers ih _ _ _).bind fun _ => .pure _)
  | cast target arg ih => exact .atomic ((ih _).value.bind fun _ => .lift _)
  | when arg clock on ih => exact .atomic (ih _).value
  | merge clock onTrue onFalse iht ihf =>
    simp only [evaluation]
    apply Evaluation.Covered.atomic
    rcases fr.env clock with _ | v
    · exact .lift _
    cases v with
    | bool b =>
      cases b with
      | true => exact (iht _).value.bind fun _ => .pure _
      | false => exact (ihf _).value.bind fun _ => .pure _
    | _ => exact .lift _
  | iterate kind node init arrays ihi iha =>
    simp only [evaluation]
    apply Evaluation.Covered.atomic
    apply (Covers.lift _).bind
    intro f
    apply (evaluationArrays_covers iha _ _).bind
    intro arrs
    apply (Covers.lift _).bind
    intro rows
    cases kind with
    | map => exact (mapCov_covers hcalls f rows).bind fun _ => .pure _
    | fold =>
      cases init with
      | none => exact .lift _
      | some seed =>
        apply (ihi seed rfl _).value.bind
        intro acc
        cases arrs with
        | nil => exact .fail _
        | cons elems rest => exact foldCov_covers hcalls f acc elems

theorem evalEqRhs_covers (hcalls : ccs.Covered) (site : Site) (rhs : Expr) :
    Covers (evalEqRhs m p cs ccs fr site rhs) := by
  have hrecord : Covers (σ := Calls) .record := Keeping.record .refl
  apply hrecord.bind
  intro c
  cases c.isRoot site with
  | true =>
    apply (evaluation_covered hcalls rhs site).decision.bind
    rintro ⟨outcome, obs⟩
    have hrecord : Covers (σ := Calls) (.modifyRecord fun c => c.recordTrial site obs outcome) :=
      .modifyRecord fun c => c.same_recordTrial site obs outcome
    exact hrecord.bind fun _ => .pure _
  | false => exact (evaluation_covered hcalls rhs site).value

end

section

variable {m : Machine} {p : Project} {cs : Callees} {ccs : CovCallees}

theorem equationStepsCov_covers (hcalls : ccs.Covered) (n : NodeDef) (info : ClockInfo)
    (state : State) (order : List Nat) (env : Env) :
    Covers (equationStepsCov m p cs ccs n info state order env) := by
  induction order generalizing env with
  | nil => exact .pure _
  | cons i order ih =>
    have hstep : Covers (equationStepCov m p cs ccs n info state env i) := by
      unfold equationStepCov
      cases n.equations[i]? with
      | none => exact .pure _
      | some eq =>
        apply (Covers.lift _).bind
        intro active
        cases active with
        | true => exact (evalEqRhs_covers hcalls _ eq.rhs).bind fun _ => .lift _
        | false => exact .pure _
    exact hstep.bind ih

theorem stepInstanceCov_covers (hcalls : ccs.Covered) (key : Site) (n : NodeDef)
    (args : List Value) (consts : Env) :
    Covers (stepInstanceCov m p cs ccs key n args consts) := by
  apply (Covers.lift _).bind
  intro env
  apply (Covers.lift _).bind
  intro order
  cases n.kind with
  | function => exact (equationStepsCov_covers hcalls n _ _ order env).bind fun _ => .pure _
  | operator =>
    apply (Covers.unrecorded _).bind
    intro calls
    apply (Covers.unrecorded _).bind
    intro _
    apply Covers.bind (Keeping.withinRecord (equationStepsCov_covers hcalls n _ _ order _))
    rintro ⟨env, childCalls⟩
    apply (Covers.unrecorded _).bind
    rintro ⟨_, ticks⟩
    exact (Covers.unrecorded _).bind fun _ => .pure _
  | imported => exact .fail _

theorem functionBody_covers (hcalls : ccs.Covered) (n : NodeDef) (args : List Value)
    (consts : Env) : Covers (do
      let env ← .lift (calleeEnv m p n args consts)
      let order ← .lift (bodyOrder n)
      let (env, _) ← .withinRecord Calls.empty
        (equationStepsCov m p cs ccs n {} .initial order env)
      pure (extractOutput n env) : CovM Value) := by
  apply (Covers.lift _).bind
  intro env
  apply (Covers.lift _).bind
  intro order
  exact Covers.bind (Keeping.withinRecord (equationStepsCov_covers hcalls n _ _ order env))
    fun _ => .pure _

theorem callFunctionValuesCov_covers (hcalls : ccs.Covered) (n : NodeDef) (args : List Value)
    (consts : Env) : Covers (callFunctionValuesCov m p cs ccs n args consts) := by
  unfold callFunctionValuesCov
  split
  · exact (Covers.lift _).bind fun _ => functionBody_covers hcalls n args consts
  · exact functionBody_covers hcalls n args consts

theorem covCallees_covered (m : Machine) (p : Project) (depth : Nat) :
    (covCallees m p depth).Covered := by
  induction depth with
  | zero => exact ⟨fun _ _ _ _ => .fail _, fun _ _ _ => .fail _⟩
  | succ depth ih => exact ⟨stepInstanceCov_covers ih, callFunctionValuesCov_covers ih⟩

theorem Sim.stepEnvCov_covers (inputs : Env) : Covers (Sim.stepEnvCov m p inputs) := by
  rintro ⟨sim, c⟩
  have hsteps : ∀ env, c.Same (equationStepsCov m p (callees m p m.stack) (covCallees m p m.stack)
      sim.node sim.clockInfo sim.state sim.eqOrder env (sim.callStates, c)).2.2 := fun env =>
    equationStepsCov_covers (covCallees_covered m p m.stack) _ _ _ _ env (sim.callStates, c)
  cases hseed : sim.seed m p inputs with
  | error e =>
    simp only [Sim.stepEnvCov, hseed]
    exact .refl c
  | ok env =>
    have hsteps := hsteps env
    simp only [Sim.stepEnvCov, hseed]
    split
    case h_1 heq => simpa only [heq] using hsteps
    case h_2 heq =>
      rw [heq] at hsteps
      split <;> exact hsteps

end

end OpenLustre.Simulator
