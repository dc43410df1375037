import OpenLustre.Sim.Run

/-! Which faults a cycle can end in.  An evaluation reports the faults of its own operators;
an unbound name and an exhausted stack come from what it is given. -/

namespace OpenLustre.Simulator

open OpenLustre.Ir

/-- A fault of an operator, and not of a name, of a constant or of the recursion. -/
def Fault.IsPlain : Fault → Prop
  | .error (.unbound _) | .error (.constant _ _) | .panic .stackOverflow => False
  | _ => True

/-- Constants that have a value in `env` have one in `env'`. -/
def KeepsConstants (p : Project) (env env' : Env) : Prop :=
  ∀ x, p.isConstant x = true → (env x).isSome → (env' x).isSome

/-- A name with a value in `env` or an enum variant. -/
def Bound (p : Project) (env : Env) (x : String) : Prop :=
  (env x).isSome ∨ (enumVariantValue p x).isSome

section

variable {m : Machine} {p : Project} {P : Fault → Prop}

/-! ## Values and operators -/

theorem fails_defaultValue (hover : P (.panic .stackOverflow)) (k : Nat) (ty : Ty) :
    (defaultValue p k ty).Fails P := by
  induction k generalizing ty with
  | zero => exact .error hover
  | succ k ih =>
    cases ty with
    | array elem len => exact (Except.Fails.mapM fun ty _ => ih ty).map _
    | named name =>
      simp only [defaultValue]
      split
      · exact .ok _
      · exact (Except.Fails.foldlM (fun _ f _ => (ih f.ty).map _) _).map _
      · exact ih _
      · exact .ok _
    | _ => exact .ok _

theorem fails_fitTo (hover : P (.panic .stackOverflow)) (k : Nat) (ty : Ty) (v : Value) :
    (fitTo p k ty v).Fails P := by
  induction k generalizing ty v with
  | zero => exact .error hover
  | succ k ih =>
    unfold fitTo
    split
    iterate 4 exact .ok _
    · exact (Except.Fails.mapM fun v _ => ih _ v).map _
    · split
      · refine (Except.Fails.foldlM (fun r f _ => ?_) _).map _
        split
        · exact (ih _ _).map _
        · exact .ok _
      · exact ih _ _
      · exact .ok _
    · exact .ok _
    · exact .ok _

theorem fails_arith (hP : ∀ f, f.IsPlain → P f) (i : Int) : (arith m i).Fails P := by
  unfold arith
  split
  · exact .ok _
  · split
    · exact .error (hP _ trivial)
    · exact .ok _

theorem fails_evalUnary (hP : ∀ f, f.IsPlain → P f) (op : UnaryOp) (v : Value) :
    (evalUnary m op v).Fails P := by
  unfold evalUnary
  split
  · exact .ok _
  · exact fails_arith hP _
  · exact .ok _
  · exact .ok _
  · exact .error (hP _ trivial)

theorem fails_evalInt (hP : ∀ f, f.IsPlain → P f) (op : BinOp) (a b : Int) :
    (evalInt m op a b).Fails P := by
  have hunsupported : Except.Fails P
      (.error (.error (.binaryOperands op (.int a) (.int b))) : Except Fault Value) :=
    .error (hP _ trivial)
  cases op with
  | add | sub | mul => exact fails_arith hP _
  | div | mod =>
    simp only [evalInt]
    split
    · exact hunsupported
    · split
      · exact .error (hP _ trivial)
      · exact .ok _
  | shl | shr =>
    simp only [evalInt]
    split
    · exact .ok _
    · exact hunsupported
  | and | or | xor | implies => exact hunsupported
  | _ => exact .ok _

theorem fails_evalBinary (hP : ∀ f, f.IsPlain → P f) (op : BinOp) (l r : Value) :
    (evalBinary m op l r).Fails P := by
  unfold evalBinary
  split
  iterate 4 exact .ok _
  split
  · split
    · exact .ok _
    · exact .error (hP _ trivial)
  · split
    · exact fails_evalInt hP _ _ _
    · exact .ok _
    · exact .ok _
    · exact .error (hP _ trivial)

theorem fails_castValue (hP : ∀ f, f.IsPlain → P f) (target : Ty) (v : Value) :
    (castValue target v).Fails P := by
  unfold castValue
  repeat' split
  all_goals first | exact .ok _ | exact .error (hP _ trivial)

theorem fails_fieldOf (hP : ∀ f, f.IsPlain → P f) (name : String) (v : Value) :
    (fieldOf name v).Fails P := by
  unfold fieldOf
  split
  · split
    · exact .ok _
    · exact .error (hP _ trivial)
  · exact .error (hP _ trivial)

theorem fails_indexOf (hP : ∀ f, f.IsPlain → P f) (base index : Value) :
    (indexOf base index).Fails P := by
  unfold indexOf
  repeat' split
  all_goals first | exact .ok _ | exact .error (hP _ trivial)

theorem fails_asBool (hP : ∀ f, f.IsPlain → P f) {v : Value} {e : Value → EvalError}
    (he : (Fault.error (e v)).IsPlain) : (asBool v e).Fails P := by
  unfold asBool
  split
  · exact .ok _
  · exact .error (hP _ he)

theorem fails_asArray (hP : ∀ f, f.IsPlain → P f) (v : Value) : (asArray v).Fails P := by
  unfold asArray
  split
  · exact .ok _
  · exact .error (hP _ trivial)

theorem fails_transpose (hP : ∀ f, f.IsPlain → P f) (arrays : List (List Value)) :
    (transpose arrays).Fails P := by
  simp only [transpose]
  split
  · exact .error (hP _ trivial)
  · exact .ok _

theorem fails_callee (hP : ∀ f, f.IsPlain → P f) (node : String) (args : Nat) :
    (callee p node args).Fails P := by
  unfold callee
  repeat' split
  all_goals first | exact .ok _ | exact .error (hP _ trivial)

theorem fails_iterated (hP : ∀ f, f.IsPlain → P f) (node : String) : (iterated p node).Fails P := by
  unfold iterated
  repeat' split
  all_goals first | exact .ok _ | exact .error (hP _ trivial)

theorem fails_clockActive (hP : ∀ f, f.IsPlain → P f) (ck : Clock) (env : Env) :
    (clockActive ck env).Fails P := by
  unfold clockActive
  induction ck.conditions with
  | nil => exact .ok _
  | cons condition rest ih =>
    unfold clockActiveOn
    split
    · split
      · exact .ok _
      · exact ih
    · exact .error (hP _ trivial)
    · exact .error (hP _ trivial)

theorem fails_preValue (hP : ∀ f, f.IsPlain → P f) (fr : Frame) (site : Site) (arg : Expr) :
    (preValue fr site arg).Fails P := by
  unfold preValue
  repeat' split
  all_goals first | exact .ok _ | exact .error (hP _ trivial)

theorem fails_discard {x : EvalM Value} (h : x.Fails P) : (discard x).Fails P := by
  intro calls
  have hx := h calls
  unfold discard
  split
  case h_1 e _ heq => exact .error (hx _ (by rw [heq]))
  case h_2 => exact .ok _

theorem fails_stepUntaken (other : Expr) {x : EvalM Value} (h : x.Fails P) :
    (stepUntaken other x).Fails P := by
  unfold stepUntaken
  split
  · exact fails_discard h
  · exact .pure _

theorem fails_setLastOutputs (site : Site) (v : Value) : (setLastOutputs site v).Fails P :=
  fun _ => .ok _

end

/-! ## Expressions -/

section

variable {m : Machine} {p : Project} {P : Fault → Prop} {cs : Callees} {fr : Frame}

/-- What keeps the faults of an expression among `P`: its names are bound, or may fail to be,
and so are those of the nodes it calls. -/
structure Sound (p : Project) (P : Fault → Prop) (cs : Callees) (fr : Frame) (e : Expr) : Prop where
  names : ∀ x, .var x ∈ e.subterms → Bound p fr.env x ∨ P (.error (.unbound x))
  calls : ∀ f args, .call f args ∈ e.subterms → ∀ n, p.findNode f = some n →
    n.isImported = false → ∀ site vs, vs.length = n.inputs.length →
      (cs.stepInstance site n vs fr.env).Fails P
  iterates : ∀ kind f init arrays, .iterate kind f init arrays ∈ e.subterms →
    ∀ n, p.findNode f = some n → n.isFunction = true → ∀ vs,
      (cs.callFunctionValues n vs (constantsFromEnv p fr.env)).Fails P

theorem Sound.child {e c : Expr} (h : Sound p P cs fr e) (hc : c ∈ e.children) :
    Sound p P cs fr c where
  names x hx := h.names x (Expr.subterms_of_child hc hx)
  calls f args hx := h.calls f args (Expr.subterms_of_child hc hx)
  iterates kind f init arrays hx := h.iterates kind f init arrays (Expr.subterms_of_child hc hx)

theorem fails_variableValue {x : String} (h : Bound p fr.env x ∨ P (.error (.unbound x))) :
    (variableValue p fr x).Fails P := by
  unfold variableValue
  split
  · exact .ok _
  case h_2 hnone =>
    split
    · exact .ok _
    case h_2 hvariant =>
      refine .error (h.resolve_left ?_)
      rintro (h | h)
      · simp [hnone] at h
      · simp [hvariant] at h

theorem fails_evalList {site : Site} {es : List Expr} {k : Nat}
    (h : ∀ e ∈ es, ∀ site, (eval m p cs fr site e).Fails P) :
    (evalList m p cs fr site k es).Fails P := by
  induction es generalizing k with
  | nil => exact .pure _
  | cons e es ih =>
    refine (h e List.mem_cons_self _).bind fun v _ => ?_
    exact (ih fun e he => h e (List.mem_cons_of_mem _ he)).bind fun vs _ => .pure _

theorem fails_evalFields {site : Site} {fields : List (String × Expr)} {k : Nat}
    {r : List (String × Value)}
    (h : ∀ e ∈ fields.map (·.2), ∀ site, (eval m p cs fr site e).Fails P) :
    (evalFields m p cs fr site k r fields).Fails P := by
  induction fields generalizing k r with
  | nil => exact .pure _
  | cons f fields ih =>
    refine (h f.2 List.mem_cons_self _).bind fun v _ => ?_
    exact ih fun e he => h e (List.mem_cons_of_mem _ he)

theorem fails_evalArrays (hP : ∀ f, f.IsPlain → P f) {site : Site} {es : List Expr} {k : Nat}
    (h : ∀ e ∈ es, ∀ site, (eval m p cs fr site e).Fails P) :
    (evalArrays m p cs fr site k es).Fails P := by
  induction es generalizing k with
  | nil => exact .pure _
  | cons e es ih =>
    refine (h e List.mem_cons_self _).bind fun v _ => ?_
    refine (Stateful.Fails.lift (fails_asArray hP v)).bind fun xs _ => ?_
    exact (ih fun e he => h e (List.mem_cons_of_mem _ he)).bind fun xss _ => .pure _

theorem fails_callFunctions (hP : ∀ f, f.IsPlain → P f) {e : Expr} (h : Sound p P cs fr e)
    {kind : IterKind} {f : String} {init : Option Expr} {arrays : List Expr}
    (he : e = .iterate kind f init arrays) {n : NodeDef} (hn : iterated p f = .ok n) :
    (∀ rows, Except.Fails P (List.mapM (fun row =>
      cs.callFunctionValues n row (constantsFromEnv p fr.env)) rows)) ∧
    ∀ acc elems, (foldFunction p cs fr n acc elems).Fails P := by
  subst he
  obtain ⟨hf, hfun⟩ := iterated_eq_ok hn
  have hcall := h.iterates kind f init arrays (Expr.self_mem_subterms _) n hf hfun
  exact ⟨fun rows => .mapM fun row _ => hcall row,
    fun acc elems => .foldlM (fun acc elem _ => hcall [acc, elem]) acc⟩

theorem fails_held {site : Site} {defaults : List Expr}
    (h : ∀ e ∈ defaults, ∀ site, (eval m p cs fr site e).Fails P) :
    (held m p cs fr site defaults).Fails P := by
  refine .bind .get fun calls _ => ?_
  split
  · exact .pure _
  · refine (fails_evalList h).bind fun vs _ => ?_
    split <;> exact .pure _

theorem fails_decided (hP : ∀ f, f.IsPlain → P f) {site : Site} {call : Expr}
    {defaults : List Expr} {c : Value} (hcall : ∀ site, (eval m p cs fr site call).Fails P)
    (h : ∀ e ∈ defaults, ∀ site, (eval m p cs fr site e).Fails P) :
    (decided m p cs fr site call defaults c).Fails P := by
  refine (Stateful.Fails.lift (fails_asBool (e := fun _ => .condactClock) hP trivial)).bind
    fun b _ => ?_
  split
  · exact (hcall _).bind fun v _ => (fails_setLastOutputs _ _).bind fun _ _ => .pure _
  · exact fails_held h

theorem fails_eval (hP : ∀ f, f.IsPlain → P f) (e : Expr) (h : Sound p P cs fr e) : ∀ site,
    (eval m p cs fr site e).Fails P := by
  induction e using Expr.children_induct with
  | h e ih =>
  intro site
  have ih (c : Expr) (hc : c ∈ e.children) := ih c hc (h.child hc)
  cases e with
  | const lit => exact .pure _
  | var name => exact .lift (fails_variableValue (h.names name (Expr.self_mem_subterms _)))
  | unary op arg =>
    exact (ih arg (by simp [Expr.children]) _).bind fun v _ => .lift (fails_evalUnary hP op v)
  | binary op lhs rhs =>
    refine (ih lhs (by simp [Expr.children]) _).bind fun l _ => ?_
    exact (ih rhs (by simp [Expr.children]) _).bind fun r _ => .lift (fails_evalBinary hP op l r)
  | ifThenElse cond thenBranch elseBranch =>
    have hthen := ih thenBranch (by simp [Expr.children])
    have helse := ih elseBranch (by simp [Expr.children])
    refine (ih cond (by simp [Expr.children]) _).bind fun c _ => ?_
    refine (Stateful.Fails.lift (fails_asBool (e := .conditionNotBool) hP trivial)).bind
      fun c _ => ?_
    cases c with
    | true =>
      exact (hthen _).bind fun v _ => (fails_stepUntaken _ (helse _)).bind fun _ _ => .pure _
    | false =>
      exact (helse _).bind fun v _ => (fails_stepUntaken _ (hthen _)).bind fun _ _ => .pure _
  | pre arg => exact .lift (fails_preValue hP fr site arg)
  | arrow init body =>
    have hinit := ih init (by simp [Expr.children])
    have hbody := ih body (by simp [Expr.children])
    simp only [eval]
    split
    · exact (hinit _).bind fun v _ => (fails_stepUntaken _ (hbody _)).bind fun _ _ => .pure _
    · exact (hbody _).bind fun v _ => (fails_stepUntaken _ (hinit _)).bind fun _ _ => .pure _
  | when arg clock on => exact ih arg (by simp [Expr.children]) _
  | merge clock onTrue onFalse =>
    simp only [eval]
    split
    · exact (ih onTrue (by simp [Expr.children]) _).bind fun v _ => .pure _
    · exact (ih onFalse (by simp [Expr.children]) _).bind fun v _ => .pure _
    · exact .lift (.error (hP _ trivial))
    · exact .lift (.error (hP _ trivial))
  | cast target arg =>
    exact (ih arg (by simp [Expr.children]) _).bind fun v _ => .lift (fails_castValue hP target v)
  | field base field =>
    exact (ih base (by simp [Expr.children]) _).bind fun v _ => .lift (fails_fieldOf hP field v)
  | index base index =>
    refine (ih base (by simp [Expr.children]) _).bind fun b _ => ?_
    exact (ih index (by simp [Expr.children]) _).bind fun i _ => .lift (fails_indexOf hP b i)
  | tuple items | array items =>
    exact (fails_evalList fun e he => ih e (by simpa [Expr.children] using he)).bind
      fun vs _ => .pure _
  | struct ty fields =>
    exact (fails_evalFields fun e he => ih e (by simpa [Expr.children] using he)).bind
      fun r _ => .pure _
  | iterate kind f init arrays =>
    simp only [eval]
    refine (Stateful.Fails.lift (fails_iterated hP f)).bind fun n hn => ?_
    obtain ⟨_, _, hn⟩ := hn
    obtain ⟨hmap, hfold⟩ := fails_callFunctions hP h rfl (Stateful.lift_eq_ok.mp hn).1
    refine (fails_evalArrays hP fun e he =>
      ih e (List.mem_append_right _ he)).bind fun arrs _ => ?_
    refine (Stateful.Fails.lift (fails_transpose hP arrs)).bind fun rows _ => ?_
    cases kind with
    | map => exact (Stateful.Fails.lift (hmap rows)).bind fun out _ => .pure _
    | fold =>
      cases init with
      | none => exact .lift (.error (hP _ trivial))
      | some seed =>
        refine (ih seed (List.mem_append_left _ (by simp)) _).bind fun acc _ => ?_
        split
        · exact .fail (hP _ trivial)
        · exact .lift (hfold acc _)
  | call node args =>
    by_cases hcondact : node = condact ∧ (p.findNode node).isNone
    · rcases args with _ | ⟨clock, _ | ⟨call, defaults⟩⟩
      · rw [eval_condact_arity hcondact (by simp)]
        exact .lift (.error (hP _ trivial))
      · rw [eval_condact_arity hcondact (by simp)]
        exact .lift (.error (hP _ trivial))
      · rw [eval_condact hcondact]
        refine (ih clock (by simp [Expr.children]) _).bind fun c _ => ?_
        exact fails_decided hP (ih call (by simp [Expr.children]))
          fun e he => ih e (by simp [Expr.children, he])
    · rw [eval_call hcondact]
      refine (Stateful.Fails.lift (fails_callee hP node args.length)).bind fun n hn => ?_
      obtain ⟨_, _, hn⟩ := hn
      obtain ⟨hf, hlen, himp⟩ := callee_eq_ok (Stateful.lift_eq_ok.mp hn).1
      refine (fails_evalList fun e he => ih e he).bind fun vs hvs => ?_
      obtain ⟨_, _, hvs⟩ := hvs
      exact h.calls node args (Expr.self_mem_subterms _) n hf himp site vs
        ((evalList_length hvs).trans hlen)

end

/-! ## Nodes -/

section

variable {m : Machine} {p : Project} {P : Fault → Prop} {cs : Callees}

/-- What keeps the faults of a body among `P`, when the constants in `consts` are bound. -/
structure SoundBody (m : Machine) (p : Project) (P : Fault → Prop) (cs : Callees) (consts : Env)
    (n : NodeDef) : Prop where
  types : ∀ port ∈ n.declared,
    (defaultValue p m.stack port.ty).Fails P ∧ ∀ v, (fitTo p m.stack port.ty v).Fails P
  names : ∀ eq ∈ n.equations, ∀ x, .var x ∈ eq.rhs.subterms →
    x ∈ n.declaredNames ∨ p.isConstant x = true ∧ (consts x).isSome ∨
      (enumVariantValue p x).isSome ∨ P (.error (.unbound x))
  calls : ∀ eq ∈ n.equations, ∀ f args, .call f args ∈ eq.rhs.subterms → ∀ c, p.findNode f = some c →
    c.isImported = false → ∀ env, KeepsConstants p consts env → ∀ site vs,
      vs.length = c.inputs.length → (cs.stepInstance site c vs env).Fails P
  iterates : ∀ eq ∈ n.equations, ∀ kind f init arrays, .iterate kind f init arrays ∈ eq.rhs.subterms →
    ∀ c, p.findNode f = some c → c.isFunction = true → ∀ env, KeepsConstants p consts env → ∀ vs,
      (cs.callFunctionValues c vs env).Fails P

/-- An environment of a body in the course of a cycle. -/
structure InBody (p : Project) (P : Fault → Prop) (n : NodeDef) (consts env : Env) : Prop where
  constants : KeepsConstants p consts env
  declared : ∀ x ∈ n.declaredNames, (env x).isSome ∨ P (.error (.unbound x))

variable {n : NodeDef} {consts env : Env}

theorem isSome_set {x : String} {v : Value} (name : String) (h : (env x).isSome) :
    ((env.set name v) x).isSome := by
  unfold Env.set
  split
  · rfl
  · exact h

theorem InBody.set (h : InBody p P n consts env) (name : String) (v : Value) :
    InBody p P n consts (env.set name v) where
  constants x hx hsome := isSome_set name (h.constants x hx hsome)
  declared x hx := (h.declared x hx).imp_left (isSome_set name)

theorem SoundBody.sound (h : SoundBody m p P cs consts n) (henv : InBody p P n consts env)
    {eq : Equation} (heq : eq ∈ n.equations) (state : State) (clocks : List (Site × Clock)) :
    Sound p P cs ⟨env, state, clocks⟩ eq.rhs where
  names x hx := by
    rcases h.names eq heq x hx with hdecl | ⟨hconst, hsome⟩ | hvariant | hP
    · exact (henv.declared x hdecl).imp_left .inl
    · exact .inl (.inl (henv.constants x hconst hsome))
    · exact .inl (.inr hvariant)
    · exact .inr hP
  calls f args hx c hc himp := h.calls eq heq f args hx c hc himp env henv.constants
  iterates kind f init arrays hx c hc hfun :=
    h.iterates eq heq kind f init arrays hx c hc hfun _ fun x hx hsome => by
      simpa [constantsFromEnv, hx] using henv.constants x hx hsome

theorem declaredType_mem {name : String} {t : Ty} (h : declaredType n name = some t) :
    ∃ port ∈ n.declared, port.ty = t := by
  obtain ⟨port, hport, rfl⟩ := Option.map_eq_some_iff.mp h
  have hmem := List.mem_of_find?_eq_some hport
  exact ⟨port, by simp only [NodeDef.declared, List.append_assoc, List.mem_append] at hmem ⊢
                  exact .inr hmem, rfl⟩

theorem fails_store (h : SoundBody m p P cs consts n) (name : String) (v : Value) (env : Env) :
    (store m p n env name v).Fails P := by
  unfold store
  split
  case h_1 t ht =>
    obtain ⟨port, hport, rfl⟩ := declaredType_mem ht
    exact ((h.types port hport).2 v).map _
  case h_2 => exact .ok _

theorem InBody.store {name : String} {v : Value} {env' : Env} (h : InBody p P n consts env)
    (hs : store m p n env name v = .ok env') : InBody p P n consts env' := by
  unfold Simulator.store at hs
  split at hs
  · obtain ⟨w, -, rfl⟩ := Except.map_eq_ok.mp hs
    exact h.set name w
  · cases hs
    exact h.set name v

theorem fails_bindLhs (hP : ∀ f, f.IsPlain → P f) (h : SoundBody m p P cs consts n)
    (eq : Equation) (env : Env) (v : Value) : (bindLhs m p n eq env v).Fails P := by
  unfold bindLhs
  split
  · exact fails_store h _ _ _
  · split
    · exact .foldlM (fun env x _ => fails_store h _ _ _) env
    · exact .error (hP _ trivial)

theorem InBody.bindLhs {eq : Equation} {v : Value} {env' : Env} (h : InBody p P n consts env)
    (hs : bindLhs m p n eq env v = .ok env') : InBody p P n consts env' := by
  unfold Simulator.bindLhs at hs
  split at hs
  · exact h.store hs
  · split at hs
    · exact Except.foldlM_invariant h (fun env h x _ env' hs => h.store hs) hs
    · cases hs

theorem fails_isActive (hP : ∀ f, f.IsPlain → P f) (info : ClockInfo) (i : Nat) (env : Env) :
    (isActive info i env).Fails P := by
  unfold isActive
  split
  · exact fails_clockActive hP _ _
  · exact .ok _

theorem fails_equationStep (hP : ∀ f, f.IsPlain → P f) (h : SoundBody m p P cs consts n)
    (henv : InBody p P n consts env) (info : ClockInfo) (state : State) (i : Nat) :
    (equationStep m p cs n info state env i).Fails P := by
  unfold equationStep
  split
  case h_1 => exact .pure _
  case h_2 eq heq =>
    refine (Stateful.Fails.lift (fails_isActive hP info i env)).bind fun active _ => ?_
    split
    · have hsound := h.sound henv (List.mem_of_getElem? heq) state info.siteClocks
      refine (fails_eval hP _ hsound _).bind fun v _ => ?_
      exact .lift (fails_bindLhs hP h _ _ _)
    · exact .pure _

theorem InBody.equationStep {info : ClockInfo} {state : State} {i : Nat} {env' : Env}
    {calls calls' : Calls} (h : InBody p P n consts env)
    (hs : equationStep m p cs n info state env i calls = (.ok env', calls')) :
    InBody p P n consts env' := by
  unfold Simulator.equationStep at hs
  cases heq : n.equations[i]? with
  | none =>
    rw [heq] at hs
    cases hs
    exact h
  | some eq =>
    rw [heq] at hs
    obtain ⟨active, _, -, hs⟩ := Stateful.bind_eq_ok.mp hs
    split at hs
    · obtain ⟨v, _, -, hs⟩ := Stateful.bind_eq_ok.mp hs
      exact h.bindLhs (Stateful.lift_eq_ok.mp hs).1
    · cases hs
      exact h

theorem fails_equationSteps (hP : ∀ f, f.IsPlain → P f) (h : SoundBody m p P cs consts n)
    (info : ClockInfo) (state : State) (order : List Nat) {env : Env}
    (henv : InBody p P n consts env) : (equationSteps m p cs n info state order env).Fails P := by
  induction order generalizing env with
  | nil => exact .pure _
  | cons i order ih =>
    refine (fails_equationStep hP h henv info state i).bind fun env' hs => ?_
    obtain ⟨_, _, hs⟩ := hs
    exact ih (henv.equationStep hs)

theorem fails_tickChains (hP : ∀ f, f.IsPlain → P f) (env : Env) (chains : List Clock) :
    (tickChains env chains).Fails P := by
  induction chains with
  | nil => exact .pure _
  | cons ck chains ih =>
    refine (Stateful.Fails.lift (fails_clockActive hP ck env)).bind fun active _ => ?_
    refine .bind .get fun ticks _ => ?_
    split
    · exact .bind (.set _) fun _ _ => ih
    · exact ih

/-! ## Calls -/

theorem fails_bodyOrder (hP : ∀ f, f.IsPlain → P f) (n : NodeDef) : (bodyOrder n).Fails P := by
  unfold bodyOrder
  cases evaluationOrder n with
  | ok order => exact .ok _
  | error msg => exact .error (hP _ trivial)

theorem fails_calleeEnv (h : SoundBody m p P cs consts n) (vs : List Value) (env : Env) :
    (calleeEnv m p n vs env).Fails P := by
  have hin {port : Port} (hport : port ∈ n.inputs) : port ∈ n.declared :=
    List.mem_append_left _ (List.mem_append_left _ hport)
  have hout {port : Port} (hport : port ∈ n.outputs ++ n.locals) : port ∈ n.declared := by
    simp only [NodeDef.declared, List.append_assoc, List.mem_append] at hport ⊢
    exact .inr hport
  refine .bind (.foldlM (fun env x hx => ?_) env) fun env' _ => .foldlM (fun env x hx => ?_) env'
  · exact ((h.types x.1 (hin (List.of_mem_zip hx).1)).2 x.2).map _
  · exact (h.types x (hout hx)).1.map _

theorem foldlM_set {α : Type} (f : α → Except Fault Value) (name : α → String) {xs : List α}
    {env env' : Env}
    (h : xs.foldlM (fun env x => (f x).map (Env.set env (name x))) env = .ok env') :
    (∀ x, (env x).isSome → (env' x).isSome) ∧ ∀ x ∈ xs, (env' (name x)).isSome := by
  induction xs generalizing env with
  | nil =>
    cases h
    simp
  | cons x xs ih =>
    rw [List.foldlM_cons] at h
    obtain ⟨env₁, h₁, h⟩ := Except.bind_eq_ok.mp h
    obtain ⟨v, -, rfl⟩ := Except.map_eq_ok.mp h₁
    obtain ⟨hkeep, hset⟩ := ih h
    refine ⟨fun y hy => hkeep y (isSome_set _ hy), List.forall_mem_cons.mpr ⟨?_, hset⟩⟩
    exact hkeep _ (by simp [Env.set])

theorem inBody_calleeEnv {vs : List Value} {env env' : Env} (hlen : vs.length = n.inputs.length)
    (henv : KeepsConstants p consts env) (h : calleeEnv m p n vs env = .ok env') :
    InBody p P n consts env' := by
  obtain ⟨env₁, h₁, h₂⟩ := Except.bind_eq_ok.mp h
  obtain ⟨hkeep₁, hset₁⟩ := foldlM_set (fun x : Port × Value => fitTo p m.stack x.1.ty x.2)
    (fun x => x.1.name) h₁
  obtain ⟨hkeep₂, hset₂⟩ := foldlM_set (fun x : Port => defaultValue p m.stack x.ty)
    (fun x => x.name) h₂
  refine ⟨fun x hx hsome => hkeep₂ x (hkeep₁ x (henv x hx hsome)), fun x hx => ?_⟩
  obtain ⟨port, hport, rfl⟩ := List.mem_map.mp hx
  rw [NodeDef.declared, List.append_assoc, List.mem_append] at hport
  rcases hport with hport | hport
  · have hport : port ∈ (n.inputs.zip vs).map (·.1) := by
      rwa [List.map_fst_zip (by omega)]
    obtain ⟨x, hmem, rfl⟩ := List.mem_map.mp hport
    exact .inl (hkeep₂ _ (hset₁ x hmem))
  · exact .inl (hset₂ port hport)

theorem InBody.reseed (h : InBody p P n consts env) (prev : String → Option Value) :
    InBody p P n consts (reseed n prev env) := by
  unfold Simulator.reseed
  refine List.foldlRecOn _ _ h fun env h port _ => ?_
  split
  · exact h.set _ _
  · exact h

theorem fails_stepOperator (hP : ∀ f, f.IsPlain → P f) (h : SoundBody m p P cs consts n)
    (henv : InBody p P n consts env) (key : Site) (order : List Nat) :
    (stepOperator m p cs key n order env).Fails P := by
  refine .bind .get fun calls _ => .bind (.set _) fun _ _ => ?_
  refine .bind (.within (fails_equationSteps hP h _ _ order (henv.reseed _)) _) fun r _ => ?_
  refine .bind (.within (fails_tickChains hP _ _) _) fun r' _ => ?_
  exact .bind (.set _) fun _ _ => .pure _

theorem fails_stepInstance (hP : ∀ f, f.IsPlain → P f) (h : SoundBody m p P cs consts n)
    {vs : List Value} (hlen : vs.length = n.inputs.length) {env : Env}
    (henv : KeepsConstants p consts env) (key : Site) :
    (stepInstance m p cs key n vs env).Fails P := by
  refine .bind (.lift (fails_calleeEnv h vs env)) fun env' henv' => ?_
  obtain ⟨_, _, henv'⟩ := henv'
  have hin : InBody p P n consts env' := inBody_calleeEnv hlen henv (Stateful.lift_eq_ok.mp henv').1
  refine .bind (.lift (fails_bodyOrder hP n)) fun order _ => ?_
  cases n.kind with
  | function => exact .bind (fails_equationSteps hP h _ _ order hin) fun env _ => .pure _
  | operator => exact fails_stepOperator hP h hin key order
  | imported => exact .fail (hP _ trivial)

theorem fails_callFunctionValues (hP : ∀ f, f.IsPlain → P f) (h : SoundBody m p P cs consts n)
    (vs : List Value) {env : Env} (henv : KeepsConstants p consts env) :
    (callFunctionValues m p cs n vs env).Fails P := by
  unfold callFunctionValues
  split
  · exact .error (hP _ trivial)
  case isFalse hlen =>
    refine .bind (fails_calleeEnv h vs env) fun env' henv' => ?_
    have hin : InBody p P n consts env' := inBody_calleeEnv (not_not.mp hlen) henv henv'
    refine .bind (fails_bodyOrder hP n) fun order _ => ?_
    exact .bind (fails_equationSteps hP h _ _ order hin Calls.empty) fun env _ => .ok _

end

end OpenLustre.Simulator
