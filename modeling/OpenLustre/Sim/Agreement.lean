import OpenLustre.Ir.Slice
import OpenLustre.Sim.Isolation

/-! Two projects that a simulation cannot tell apart: they have in common all that it looks at. -/

namespace OpenLustre.Simulator

open OpenLustre.Ir

/-- What a simulation may look at: the nodes it calls, the types of their ports, the names that
expressions read and those whose values are carried from cycle to cycle. -/
structure View where
  node : String → Prop
  type : String → Prop
  read : String → Prop
  name : String → Prop

namespace View

variable (V : View)

structure Expression (e : Expr) : Prop where
  applied : ∀ f ∈ e.applied, V.node f
  read : ∀ x ∈ e.freeVars, V.read x

def Types (ty : Ty) : Prop := ∀ x ∈ ty.named?, V.type x

structure Body (n : NodeDef) : Prop where
  equation : ∀ eq ∈ n.equations, V.Expression eq.rhs
  name : ∀ port ∈ n.declared, V.name port.name
  type : ∀ port ∈ n.declared, V.Types port.ty

/-- Two projects that look the same, and what is seen of the first one stays in view. -/
structure Same (p q : Project) : Prop where
  findNode : ∀ f, V.node f → p.findNode f = q.findNode f
  body : ∀ f, V.node f → ∀ n ∈ p.findNode f, V.Body n
  findType : ∀ x, V.type x → findType p x = findType q x
  record : ∀ x, V.type x → ∀ name fields, Simulator.findType p x = some (.record name fields) →
    ∀ f ∈ fields, V.Types f.ty
  target : ∀ x, V.type x → ∀ name ty, Simulator.findType p x = some (.aliasOf name ty) → V.Types ty
  read : ∀ x, V.read x → V.name x
  variant : ∀ x, V.read x → enumVariantValue p x = enumVariantValue q x
  constant : ∀ x, V.name x → p.isConstant x = q.isConstant x
  /-- The name under which a conditional activation keeps its last outputs. -/
  lastOutputs : V.name ""

variable {V}

theorem Expression.child {e c : Expr} (h : V.Expression e) (hc : c ∈ e.children) :
    V.Expression c := by
  constructor
  · intro f hf
    obtain ⟨t, ht, htf⟩ := List.mem_filterMap.mp hf
    exact h.applied f (List.mem_filterMap.mpr ⟨t, Expr.subterms_of_child hc ht, htf⟩)
  · intro x hx
    obtain ⟨t, ht, htx⟩ := Expr.mem_freeVars.mp hx
    exact h.read x (Expr.mem_freeVars.mpr ⟨t, Expr.subterms_of_child hc ht, htx⟩)

theorem Expression.self {e : Expr} (h : V.Expression e) {x : String} (hx : e.readName = some x) :
    V.read x :=
  h.read x (Expr.mem_freeVars.mpr ⟨e, Expr.self_mem_subterms e, hx⟩)

theorem Expression.call {f : String} {args : List Expr} (h : V.Expression (.call f args)) :
    V.node f :=
  h.applied f (List.mem_filterMap.mpr ⟨_, Expr.self_mem_subterms _, rfl⟩)

theorem Expression.iterate {kind : IterKind} {f : String} {init : Option Expr}
    {arrays : List Expr} (h : V.Expression (.iterate kind f init arrays)) : V.node f :=
  h.applied f (List.mem_filterMap.mpr ⟨_, Expr.self_mem_subterms _, rfl⟩)

section Values

variable {p q : Project} (h : V.Same p q)

include h

theorem Same.defaultValue {fuel : Nat} {ty : Ty} (hty : V.Types ty) :
    defaultValue p fuel ty = defaultValue q fuel ty := by
  induction fuel generalizing ty with
  | zero => rfl
  | succ fuel ih =>
    cases ty with
    | named name =>
      have hname : V.type name := hty name (by simp [Ty.named?])
      have hrecord := h.record name hname
      have htarget := h.target name hname
      simp only [Simulator.defaultValue, ← h.findType name hname]
      cases hfind : Simulator.findType p name with
      | none => rfl
      | some body =>
        cases body with
        | enum e => rfl
        | record name' fields =>
          simp only
          congr 1
          refine Except.foldlM_congr (fun f hf fields' => ?_) _
          rw [ih (hrecord name' fields hfind f hf)]
        | aliasOf name' target => exact ih (htarget name' target hfind)
    | array elem len =>
      have helem : Simulator.defaultValue p fuel elem = Simulator.defaultValue q fuel elem :=
        ih fun x hx => hty x hx
      simp only [Simulator.defaultValue]
      congr 1
      refine Except.mapM_congr fun ty hty' => ?_
      rw [List.eq_of_mem_replicate hty', helem]
    | _ => rfl

theorem Same.fitTo {fuel : Nat} {ty : Ty} (hty : V.Types ty) (v : Value) :
    fitTo p fuel ty v = fitTo q fuel ty v := by
  induction fuel generalizing ty v with
  | zero => rfl
  | succ fuel ih =>
    cases ty with
    | named name =>
      have hname : V.type name := hty name (by simp [Ty.named?])
      have hrecord := h.record name hname
      have htarget := h.target name hname
      simp only [Simulator.fitTo, ← h.findType name hname]
      cases hfind : Simulator.findType p name with
      | none => rfl
      | some body =>
        cases body with
        | enum e => rfl
        | record name' fields =>
          cases v with
          | record fields' =>
            simp only
            congr 1
            refine Except.foldlM_congr (fun f hf fields'' => ?_) _
            split
            · rw [ih (hrecord name' fields hfind f hf)]
            · rfl
          | _ => rfl
        | aliasOf name' target => exact ih (htarget name' target hfind) v
    | array elem len =>
      have hnames : V.Types elem := hty
      have helem : Simulator.fitTo p fuel elem = Simulator.fitTo q fuel elem := funext (ih hnames)
      cases v <;> simp only [Simulator.fitTo, helem]
    | _ => cases v <;> rfl

end Values

end View

section States

/-- Two states of an instance that agree on what is looked at. -/
inductive StateAlike (name : String → Prop) : State → State → Prop
  | mk {s t : State} : s.cycle = t.cycle → s.clockTicks = t.clockTicks →
    EnvAgree name s.prev t.prev →
    (∀ site, (s.childCalls site).isSome = (t.childCalls site).isSome) →
    (∀ site s' t', s.childCalls site = some s' → t.childCalls site = some t' →
      StateAlike name s' t') → StateAlike name s t

structure CallsAlike (name : String → Prop) (c d : Calls) : Prop where
  domain : ∀ site, (c site).isSome = (d site).isSome
  state : ∀ site s t, c site = some s → d site = some t → StateAlike name s t

variable {name : String → Prop} {s t : State} {c d : Calls}

theorem StateAlike.initial (name : String → Prop) : StateAlike name .initial .initial :=
  .mk rfl rfl (fun _ _ => rfl) (fun _ => rfl) (by simp [State.initial])

theorem CallsAlike.empty (name : String → Prop) : CallsAlike name Calls.empty Calls.empty :=
  ⟨fun _ => rfl, by simp [Calls.empty]⟩

theorem StateAlike.childCalls (h : StateAlike name s t) :
    CallsAlike name s.childCalls t.childCalls := by
  cases h with
  | mk _ _ _ domain state => exact ⟨domain, state⟩

theorem StateAlike.next (hcycle : s.cycle = t.cycle) (hprev : EnvAgree name s.prev t.prev)
    {a b : Env} (hab : EnvAgree name a b) (ticks : String → Nat) (h : CallsAlike name c d) :
    StateAlike name (s.next a ticks c) (t.next b ticks d) := by
  refine .mk (congrArg (· + 1) hcycle) rfl (fun x hx => ?_) h.domain h.state
  simp only [State.next, Env.extend, hab x hx, hprev x hx]

theorem CallsAlike.getD (h : CallsAlike name c d) (site : Site) :
    StateAlike name ((c site).getD .initial) ((d site).getD .initial) := by
  have hdomain := h.domain site
  cases hc : c site with
  | none =>
    cases hd : d site with
    | none => exact .initial name
    | some t => simp [hc, hd] at hdomain
  | some s =>
    cases hd : d site with
    | none => simp [hc, hd] at hdomain
    | some t => exact h.state site s t hc hd

theorem CallsAlike.set_none (h : CallsAlike name c d) (site : Site) :
    CallsAlike name (c.set site none) (d.set site none) := by
  constructor
  · intro site'
    unfold Calls.set
    split
    · rfl
    · exact h.domain site'
  · intro site' s t hs ht
    unfold Calls.set at hs ht
    split at hs
    · cases hs
    · next hne =>
      rw [if_neg hne] at ht
      exact h.state site' s t hs ht

theorem CallsAlike.set_some (h : CallsAlike name c d) (site : Site) (hst : StateAlike name s t) :
    CallsAlike name (c.set site (some s)) (d.set site (some t)) := by
  constructor
  · intro site'
    unfold Calls.set
    split
    · rfl
    · exact h.domain site'
  · intro site' s' t' hs ht
    unfold Calls.set at hs ht
    split at hs
    · next heq =>
      rw [if_pos heq] at ht
      cases hs
      cases ht
      exact hst
    · next hne =>
      rw [if_neg hne] at ht
      exact h.state site' s' t' hs ht

theorem lastOutputs_alike (h : CallsAlike name c d) (hempty : name "") (site : Site) :
    lastOutputs site c = lastOutputs site d := by
  have hdomain := h.domain site
  unfold lastOutputs
  cases hc : c site with
  | none =>
    cases hd : d site with
    | none => rfl
    | some t => simp [hc, hd] at hdomain
  | some s =>
    cases hd : d site with
    | none => simp [hc, hd] at hdomain
    | some t =>
      cases h.state site s t hc hd with
      | mk _ _ prev _ _ => exact prev "" hempty

theorem related_setLastOutputs_alike (site : Site) (v : Value) :
    Stateful.Related (CallsAlike name) (· = ·) (setLastOutputs site v) (setLastOutputs site v) := by
  intro c d hcd
  refine ⟨hcd.set_some site ?_, .ok rfl⟩
  cases hcd.getD site with
  | mk cycle clockTicks prev domain state =>
    exact .mk cycle clockTicks ((prev.set "" v).mono fun _ => .inl) domain state

theorem related_discard_alike {I : Calls → Calls → Prop} {x y : EvalM Value}
    (h : Stateful.Related I (· = ·) x y) :
    Stateful.Related I (fun _ _ => True) (discard x) (discard y) := by
  intro c d hcd
  obtain ⟨hcalls, hresult⟩ := h c d hcd
  unfold discard
  revert hcalls hresult
  generalize x c = rx
  generalize y d = ry
  obtain ⟨rx, c'⟩ := rx
  obtain ⟨ry, d'⟩ := ry
  intro hcalls hresult
  cases hresult with
  | inl hok =>
    obtain ⟨v, w, rfl, rfl, -⟩ := hok
    exact ⟨hcalls, .ok trivial⟩
  | inr herror =>
    obtain ⟨e, rfl, rfl⟩ := herror
    cases e with
    | error e => exact ⟨hcalls, .ok trivial⟩
    | panic e => exact ⟨hcalls, .error _⟩

end States

namespace View

variable {V : View} {m : Machine} {p q : Project} {cs cs' : Callees} {a b : Frame}

/-- Two evaluations that agree on what is looked at. -/
structure Frames (V : View) (a b : Frame) : Prop where
  env : EnvAgree V.name a.env b.env
  cycle : a.state.cycle = b.state.cycle
  clockTicks : a.state.clockTicks = b.state.clockTicks
  prev : EnvAgree V.name a.state.prev b.state.prev
  siteClocks : a.siteClocks = b.siteClocks

/-- Calls in either project that cannot be told apart. -/
structure SameCallees (V : View) (p : Project) (cs cs' : Callees) : Prop where
  stepInstance : ∀ f n, V.node f → p.findNode f = some n → ∀ site args a b, EnvAgree V.name a b →
    Stateful.Related (CallsAlike V.name) (· = ·) (cs.stepInstance site n args a)
      (cs'.stepInstance site n args b)
  callFunctionValues : ∀ f n, V.node f → p.findNode f = some n → ∀ args a b, EnvAgree V.name a b →
    cs.callFunctionValues n args a = cs'.callFunctionValues n args b

theorem Frames.firstTick (h : V.Frames a b) (site : Site) : firstTick a site = firstTick b site := by
  simp only [Simulator.firstTick, h.siteClocks, h.cycle, h.clockTicks]

section Evaluation

variable (h : V.Same p q)

include h

theorem Same.realKind {a b : Env} (hab : EnvAgree V.name a b) {e : Expr} (he : V.Expression e) :
    realKind p a e = realKind q b e := by
  induction e with
  | const lit => cases lit <;> rfl
  | var name => simp only [Simulator.realKind, hab name (h.read name (he.self rfl))]
  | unary _ arg ih | pre arg ih | when arg _ _ ih =>
    simpa only [Simulator.realKind] using ih (he.child (by simp [Expr.children]))
  | binary op lhs rhs ihl ihr =>
    have hl := ihl (he.child (by simp [Expr.children]))
    have hr := ihr (he.child (by simp [Expr.children]))
    cases op <;> simp only [Simulator.realKind, hl, hr]
  | ifThenElse _ _ _ _ iht ihe =>
    simp only [Simulator.realKind, iht (he.child (by simp [Expr.children])),
      ihe (he.child (by simp [Expr.children]))]
  | arrow _ _ ihl ihr | merge _ _ _ ihl ihr =>
    simp only [Simulator.realKind, ihl (he.child (by simp [Expr.children])),
      ihr (he.child (by simp [Expr.children]))]
  | call node args => simp only [Simulator.realKind, h.findNode node he.call]
  | field | index | tuple | array | struct | cast | iterate => rfl

theorem Same.commonReal {a b : Env} (hab : EnvAgree V.name a b) {e : Expr} (he : V.Expression e)
    (v : Value) : commonReal p a v e = commonReal q b v e := by
  simp only [Simulator.commonReal, h.realKind hab he]

theorem Same.preValue (hfr : V.Frames a b) {arg : Expr} (he : V.Expression (.pre arg))
    (site : Site) : preValue a site arg = preValue b site arg := by
  unfold Simulator.preValue
  rw [hfr.firstTick site]
  cases arg with
  | var name =>
    have hread : V.read name := (he.child (c := .var name) (by simp [Expr.children])).self rfl
    simp only [hfr.prev name (h.read name hread)]
  | _ => rfl

theorem Same.variableValue (hfr : V.Frames a b) {name : String} (he : V.Expression (.var name)) :
    variableValue p a name = variableValue q b name := by
  simp only [Simulator.variableValue, hfr.env name (h.read name (he.self rfl)),
    h.variant name (he.self rfl)]

theorem Same.constantsFromEnv {a b : Env} (hab : EnvAgree V.name a b) :
    EnvAgree V.name (constantsFromEnv p a) (constantsFromEnv q b) := by
  intro x hx
  simp only [Simulator.constantsFromEnv, h.constant x hx, hab x hx]

theorem Same.callee {f : String} (hf : V.node f) (k : Nat) : callee p f k = callee q f k := by
  simp only [Simulator.callee, h.findNode f hf]

theorem Same.iterated {f : String} (hf : V.node f) : iterated p f = iterated q f := by
  simp only [Simulator.iterated, h.findNode f hf]

end Evaluation

section Lists

variable {I : Calls → Calls → Prop}

theorem related_evalList {site : Site} {es : List Expr} {k : Nat}
    (h : ∀ i e, es[i]? = some e → Stateful.Related I (· = ·)
      (eval m p cs a (site.child (k + i)) e) (eval m q cs' b (site.child (k + i)) e)) :
    Stateful.Related I (· = ·) (evalList m p cs a site k es)
      (evalList m q cs' b site k es) := by
  induction es generalizing k with
  | nil => exact .pure rfl
  | cons e es ih =>
    refine (h 0 e rfl).bind ?_
    rintro v _ rfl
    refine (ih fun i e he => ?_).bind ?_
    · rw [Nat.add_assoc, Nat.add_comm 1 i]
      exact h (i + 1) e he
    · rintro vs _ rfl
      exact .pure rfl

theorem related_evalFields {site : Site} {fields : List (String × Expr)} {k : Nat}
    {r : List (String × Value)}
    (h : ∀ i e, (fields.map (·.2))[i]? = some e → Stateful.Related I (· = ·)
      (eval m p cs a (site.child (k + i)) e) (eval m q cs' b (site.child (k + i)) e)) :
    Stateful.Related I (· = ·) (evalFields m p cs a site k r fields)
      (evalFields m q cs' b site k r fields) := by
  induction fields generalizing k r with
  | nil => exact .pure rfl
  | cons f fields ih =>
    refine (h 0 f.2 rfl).bind ?_
    rintro v _ rfl
    refine ih fun i e he => ?_
    rw [Nat.add_assoc, Nat.add_comm 1 i]
    exact h (i + 1) e he

theorem related_evalArrays {site : Site} {es : List Expr} {k : Nat}
    (h : ∀ i e, es[i]? = some e → Stateful.Related I (· = ·)
      (eval m p cs a (site.child (k + i)) e) (eval m q cs' b (site.child (k + i)) e)) :
    Stateful.Related I (· = ·) (evalArrays m p cs a site k es)
      (evalArrays m q cs' b site k es) := by
  induction es generalizing k with
  | nil => exact .pure rfl
  | cons e es ih =>
    refine (h 0 e rfl).bind ?_
    rintro v _ rfl
    refine (Stateful.Related.lift _).bind ?_
    rintro xs _ rfl
    refine (ih fun i e he => ?_).bind ?_
    · rw [Nat.add_assoc, Nat.add_comm 1 i]
      exact h (i + 1) e he
    · rintro xss _ rfl
      exact .pure rfl

theorem related_stepUntaken {x y : EvalM Value} (other : Expr)
    (h : Stateful.Related I (· = ·) x y) :
    Stateful.Related I (fun _ _ => True) (stepUntaken other x)
      (stepUntaken other y) := by
  unfold stepUntaken
  split
  · exact related_discard_alike h
  · exact .pure trivial

end Lists

section Terms

variable (h : V.Same p q)

include h

theorem Same.condact {site : Site} {node : String} {args : List Expr}
    (he : V.Expression (.call node args)) (hnode : node = condact ∧ (p.findNode node).isNone)
    (hc : ∀ i e, args[i]? = some e → Stateful.Related (CallsAlike V.name) (· = ·)
      (Simulator.eval m p cs a (site.child i) e) (Simulator.eval m q cs' b (site.child i) e)) :
    Stateful.Related (CallsAlike V.name) (· = ·) (Simulator.eval m p cs a site (.call node args))
      (Simulator.eval m q cs' b site (.call node args)) := by
  have hnode' : node = Simulator.condact ∧ (q.findNode node).isNone := by
    rwa [← h.findNode node he.call]
  match args with
  | [] | [_] =>
    simp only [Simulator.eval, if_pos hnode, if_pos hnode']
    exact .lift _
  | clock :: call :: defaults =>
    simp only [Simulator.eval, if_pos hnode, if_pos hnode']
    refine (hc 0 clock rfl).bind ?_
    rintro c _ rfl
    refine (Stateful.Related.lift _).bind ?_
    rintro on _ rfl
    cases on with
    | true =>
      refine (hc 1 call rfl).bind ?_
      rintro v _ rfl
      refine (related_setLastOutputs_alike site v).bind ?_
      rintro _ _ rfl
      exact .pure rfl
    | false =>
      refine Stateful.Related.get.bind fun c d hcd => ?_
      rw [lastOutputs_alike hcd h.lastOutputs site]
      cases Simulator.lastOutputs site d with
      | some v => exact .pure rfl
      | none =>
        refine (related_evalList (k := 2) fun i e he => ?_).bind ?_
        · rw [Nat.add_comm]
          exact hc (i + 2) e he
        · rintro vs _ rfl
          split <;> exact .pure rfl

theorem Same.call (hcs : V.SameCallees p cs cs') (hfr : V.Frames a b) {site : Site}
    {node : String} {args : List Expr} (he : V.Expression (.call node args))
    (hc : ∀ i e, args[i]? = some e → Stateful.Related (CallsAlike V.name) (· = ·)
      (Simulator.eval m p cs a (site.child i) e) (Simulator.eval m q cs' b (site.child i) e)) :
    Stateful.Related (CallsAlike V.name) (· = ·) (Simulator.eval m p cs a site (.call node args))
      (Simulator.eval m q cs' b site (.call node args)) := by
  by_cases hnode : node = Simulator.condact ∧ (p.findNode node).isNone
  · exact h.condact he hnode hc
  · have hnode' : ¬ (node = Simulator.condact ∧ (q.findNode node).isNone) := by
      rwa [← h.findNode node he.call]
    rw [eval_call hnode, eval_call hnode', ← h.callee he.call]
    refine ((Stateful.Related.lift _).and_left (P := fun c => Simulator.callee p node args.length = .ok c)
      fun s c s' hok => (Stateful.lift_eq_ok.mp hok).1).bind ?_
    rintro c _ ⟨rfl, hok⟩
    refine (related_evalList (k := 0) fun i e hi => ?_).bind ?_
    · simpa using hc i e hi
    · rintro vs _ rfl
      exact hcs.stepInstance node c he.call (callee_eq_ok hok).1 site vs _ _ hfr.env

theorem Same.iterate (hcs : V.SameCallees p cs cs') (hfr : V.Frames a b) {site : Site}
    {kind : IterKind} {f : String} {init : Option Expr} {arrays : List Expr}
    (he : V.Expression (.iterate kind f init arrays))
    (hc : ∀ i e, (init.toList ++ arrays)[i]? = some e →
      Stateful.Related (CallsAlike V.name) (· = ·)
        (Simulator.eval m p cs a (site.child i) e) (Simulator.eval m q cs' b (site.child i) e)) :
    Stateful.Related (CallsAlike V.name) (· = ·)
      (Simulator.eval m p cs a site (.iterate kind f init arrays))
      (Simulator.eval m q cs' b site (.iterate kind f init arrays)) := by
  have harrays {k : Nat} (hk : k = init.toList.length) :
      Stateful.Related (CallsAlike V.name) (· = ·)
        (evalArrays m p cs a site k arrays) (evalArrays m q cs' b site k arrays) := by
    refine related_evalArrays fun i e hi => hc (k + i) e ?_
    rw [hk, List.getElem?_append_right (by omega)]
    simpa using hi
  have hrows {β : Type} {x y : List (List Value) → List (List Value) → EvalM β} {k : Nat}
      (hk : k = init.toList.length)
      (hxy : ∀ arrs rows, Stateful.Related (CallsAlike V.name) (· = ·) (x arrs rows) (y arrs rows)) :
      Stateful.Related (CallsAlike V.name) (· = ·)
        (do
          let arrs ← evalArrays m p cs a site k arrays
          let rows ← .lift (transpose arrs)
          x arrs rows)
        (do
          let arrs ← evalArrays m q cs' b site k arrays
          let rows ← .lift (transpose arrs)
          y arrs rows) := by
    refine (harrays hk).bind ?_
    rintro arrs _ rfl
    refine (Stateful.Related.lift _).bind ?_
    rintro rows _ rfl
    exact hxy arrs rows
  have hiterated {β : Type} {x y : NodeDef → EvalM β}
      (hxy : ∀ c, (∀ args, cs.callFunctionValues c args (Simulator.constantsFromEnv p a.env) =
          cs'.callFunctionValues c args (Simulator.constantsFromEnv q b.env)) →
        Stateful.Related (CallsAlike V.name) (· = ·) (x c) (y c)) :
      Stateful.Related (CallsAlike V.name) (· = ·)
        (do let c ← .lift (Simulator.iterated p f); x c)
        (do let c ← .lift (Simulator.iterated q f); y c) := by
    rw [← h.iterated he.iterate]
    refine ((Stateful.Related.lift _).and_left (P := fun c => Simulator.iterated p f = .ok c)
      fun s c s' hok => (Stateful.lift_eq_ok.mp hok).1).bind ?_
    rintro c _ ⟨rfl, hok⟩
    exact hxy c fun args => hcs.callFunctionValues f c he.iterate (iterated_eq_ok hok).1 args _ _
      (h.constantsFromEnv hfr.env)
  cases kind with
  | map =>
    simp only [Simulator.eval]
    refine hiterated fun c hcall => hrows (by cases init <;> rfl) fun arrs rows => ?_
    simp only [hcall]
    refine (Stateful.Related.lift _).bind ?_
    rintro out _ rfl
    exact .pure rfl
  | fold =>
    cases init with
    | none =>
      simp only [Simulator.eval]
      exact hiterated fun c _ => hrows rfl fun arrs rows => .lift _
    | some seed =>
      simp only [Simulator.eval]
      refine hiterated fun c hcall => hrows rfl fun arrs rows => ?_
      refine (hc 0 seed rfl).bind ?_
      rintro acc _ rfl
      cases arrs with
      | nil => exact .fail _
      | cons elems _ =>
        simp only [foldFunction, hcall]
        exact .lift _

/-- An expression in view evaluates alike in both projects. -/
theorem Same.eval (hcs : V.SameCallees p cs cs') (hfr : V.Frames a b) (e : Expr)
    (he : V.Expression e) : ∀ site, Stateful.Related (CallsAlike V.name) (· = ·)
      (Simulator.eval m p cs a site e) (Simulator.eval m q cs' b site e) := by
  induction e using Expr.children_induct with
  | h e ih =>
  intro site
  have hc (k : Nat) (c : Expr) (hk : e.children[k]? = some c) :
      Stateful.Related (CallsAlike V.name) (· = ·) (Simulator.eval m p cs a (site.child k) c)
        (Simulator.eval m q cs' b (site.child k) c) :=
    ih c (List.mem_of_getElem? hk) (he.child (List.mem_of_getElem? hk)) _
  have hkind (c : Expr) (hmem : c ∈ e.children) (v : Value) :
      Simulator.commonReal p a.env v c = Simulator.commonReal q b.env v c :=
    h.commonReal hfr.env (he.child hmem) v
  cases e with
  | const lit => exact .pure rfl
  | var name =>
    simp only [Simulator.eval, h.variableValue hfr he]
    exact .lift _
  | unary op arg =>
    refine (hc 0 arg rfl).bind ?_
    rintro v _ rfl
    exact .lift _
  | binary op lhs rhs =>
    refine (hc 0 lhs rfl).bind ?_
    rintro l _ rfl
    refine (hc 1 rhs rfl).bind ?_
    rintro r _ rfl
    exact .lift _
  | ifThenElse cond thenBranch elseBranch =>
    refine (hc 0 cond rfl).bind ?_
    rintro c _ rfl
    refine (Stateful.Related.lift _).bind ?_
    rintro c _ rfl
    cases c with
    | true =>
      refine (hc 1 thenBranch rfl).bind ?_
      rintro v _ rfl
      refine (related_stepUntaken elseBranch (hc 2 elseBranch rfl)).bind fun _ _ _ => ?_
      exact .pure (hkind elseBranch (by simp [Expr.children]) v)
    | false =>
      refine (hc 2 elseBranch rfl).bind ?_
      rintro v _ rfl
      refine (related_stepUntaken thenBranch (hc 1 thenBranch rfl)).bind fun _ _ _ => ?_
      exact .pure (hkind thenBranch (by simp [Expr.children]) v)
  | pre arg =>
    simp only [Simulator.eval, h.preValue hfr he]
    exact .lift _
  | arrow init body =>
    simp only [Simulator.eval, hfr.firstTick site]
    split
    · refine (hc 0 init rfl).bind ?_
      rintro v _ rfl
      refine (related_stepUntaken body (hc 1 body rfl)).bind fun _ _ _ => ?_
      exact .pure (hkind body (by simp [Expr.children]) v)
    · refine (hc 1 body rfl).bind ?_
      rintro v _ rfl
      refine (related_stepUntaken init (hc 0 init rfl)).bind fun _ _ _ => ?_
      exact .pure (hkind init (by simp [Expr.children]) v)
  | when arg clock on => exact hc 0 arg rfl
  | merge clock onTrue onFalse =>
    simp only [Simulator.eval, hfr.env clock (h.read clock (he.self rfl))]
    split
    · refine (hc 0 onTrue rfl).bind ?_
      rintro v _ rfl
      exact .pure (hkind onFalse (by simp [Expr.children]) v)
    · refine (hc 1 onFalse rfl).bind ?_
      rintro v _ rfl
      exact .pure (hkind onTrue (by simp [Expr.children]) v)
    · exact .lift _
    · exact .lift _
  | cast target arg =>
    refine (hc 0 arg rfl).bind ?_
    rintro v _ rfl
    exact .lift _
  | field base field =>
    refine (hc 0 base rfl).bind ?_
    rintro v _ rfl
    exact .lift _
  | index base index =>
    refine (hc 0 base rfl).bind ?_
    rintro v _ rfl
    refine (hc 1 index rfl).bind ?_
    rintro i _ rfl
    exact .lift _
  | tuple items | array items =>
    refine (related_evalList (k := 0) fun i e he => ?_).bind ?_
    · simpa using hc i e he
    · rintro vs _ rfl
      exact .pure rfl
  | struct ty fields =>
    refine (related_evalFields (k := 0) fun i e he => ?_).bind ?_
    · simpa using hc i e he
    · rintro r _ rfl
      exact .pure rfl
  | call node args => exact h.call hcs hfr he hc
  | iterate kind node init arrays => exact h.iterate hcs hfr he hc

end Terms

section Nodes

variable {n : NodeDef} {info : ClockInfo} {s t : State}

theorem Body.clocks (hn : V.Body n) (h : V.Same p q) : ClocksFrom V.name (clocksOf n) := by
  have hmentioned (x : String) (hx : n.Mentioned x) : V.name x := by
    obtain ⟨t, ht, hread⟩ := hx
    obtain ⟨eq, heq, hterm⟩ := List.mem_flatMap.mp ht
    exact h.read x ((hn.equation eq heq).read x (Expr.mem_freeVars.mpr ⟨t, hterm, hread⟩))
  unfold clocksOf
  split
  · obtain ⟨hequations, hchains⟩ := inferClocks_from n
    exact ⟨fun ck hck => Clock.From.mono (hequations ck hck) hmentioned,
      fun ck hck => Clock.From.mono (hchains ck hck) hmentioned⟩
  · exact ⟨by simp, by simp⟩

theorem Body.extractOutput (hn : V.Body n) {a b : Env} (hab : EnvAgree V.name a b) :
    extractOutput n a = extractOutput n b := by
  have hports : EnvAgree (fun x => x ∈ n.outputs.map (·.name)) a b := by
    intro x hx
    obtain ⟨port, hport, rfl⟩ := List.mem_map.mp hx
    exact hab port.name (hn.name port (by simp [NodeDef.declared, hport]))
  simp only [Simulator.extractOutput, takeOutputs_congr hports]

theorem agree_calleeArgs {name : String → Prop} (args : List Value) {a b : Env}
    (hab : EnvAgree name a b) :
    Except.Agree (EnvAgree name) (calleeEnv m p n args a) (calleeEnv m p n args b) := by
  have hinputs := agree_setAll (fun pair : Port × Value => pair.1.name)
    (fun pair => fitTo p m.stack pair.1.ty pair.2) (n.inputs.zip args) hab
  refine hinputs.bind fun a' b' hab' => ?_
  exact (agree_setAll (fun port : Port => port.name) (fun port => defaultValue p m.stack port.ty)
    (n.outputs ++ n.locals) (hab'.mono fun x => .inl)).mono fun a'' b'' hab'' =>
      hab''.mono fun x => .inl

theorem agree_seeded {prev prev' : String → Option Value} {ports : List Port}
    (hports : ∀ port ∈ ports, V.name port.name) (hprev : EnvAgree V.name prev prev') {a b : Env}
    (hab : EnvAgree V.name a b) :
    EnvAgree V.name
      (ports.foldl (fun env port =>
        match prev port.name with
        | some v => env.set port.name v
        | none => env) a)
      (ports.foldl (fun env port =>
        match prev' port.name with
        | some v => env.set port.name v
        | none => env) b) := by
  induction ports generalizing a b with
  | nil => exact hab
  | cons port ports ih =>
    refine ih (fun port hport => hports port (List.mem_cons_of_mem _ hport)) ?_
    dsimp only
    rw [hprev port.name (hports port List.mem_cons_self)]
    cases prev' port.name with
    | none => exact hab
    | some v => exact (hab.set port.name v).mono fun _ => .inl

theorem Body.reseed (hn : V.Body n) {prev prev' : String → Option Value}
    (hprev : EnvAgree V.name prev prev') {a b : Env} (hab : EnvAgree V.name a b) :
    EnvAgree V.name (reseed n prev a) (reseed n prev' b) :=
  agree_seeded (fun port hport => hn.name port (by
    simp only [NodeDef.declared, List.append_assoc]
    exact List.mem_append_right _ hport)) hprev hab

variable (h : V.Same p q)

include h

theorem Same.calleeEnv (hn : V.Body n) (args : List Value) (consts : Env) :
    calleeEnv m p n args consts = calleeEnv m q n args consts := by
  have htype (port : Port) (hport : port ∈ n.declared) : V.Types port.ty := hn.type port hport
  unfold Simulator.calleeEnv
  have hinputs (env : Env) :
      (n.inputs.zip args).foldlM (fun env (pair : Port × Value) =>
        (Simulator.fitTo p m.stack pair.1.ty pair.2).map (env.set pair.1.name)) env =
      (n.inputs.zip args).foldlM (fun env (pair : Port × Value) =>
        (Simulator.fitTo q m.stack pair.1.ty pair.2).map (env.set pair.1.name)) env := by
    refine Except.foldlM_congr (fun pair hpair env => ?_) env
    have hport : pair.1 ∈ n.inputs := (List.of_mem_zip (a := pair.1) (b := pair.2) hpair).1
    rw [h.fitTo (htype pair.1 (by simp [NodeDef.declared, hport]))]
  have houtputs (env : Env) :
      (n.outputs ++ n.locals).foldlM (fun env (port : Port) =>
        (Simulator.defaultValue p m.stack port.ty).map (env.set port.name)) env =
      (n.outputs ++ n.locals).foldlM (fun env (port : Port) =>
        (Simulator.defaultValue q m.stack port.ty).map (env.set port.name)) env := by
    refine Except.foldlM_congr (fun port hport env => ?_) env
    have hmem : port ∈ n.declared := by
      simp only [NodeDef.declared, List.append_assoc]
      exact List.mem_append_right _ hport
    rw [h.defaultValue (htype port hmem)]
  exact congr (congrArg _ (hinputs consts)) (funext houtputs)

theorem Same.store (hn : V.Body n) (env : Env) (x : String) (v : Value) :
    store m p n env x v = store m q n env x v := by
  unfold Simulator.store
  cases hty : declaredType n x with
  | none => rfl
  | some ty =>
    obtain ⟨port, hport, rfl⟩ := Option.map_eq_some_iff.mp hty
    have hmem : port ∈ n.declared := by
      simp only [NodeDef.declared, List.append_assoc]
      exact List.mem_append_right _ (List.mem_of_find?_eq_some hport)
    simp only [h.fitTo (hn.type port hmem)]

theorem Same.bindLhs (hn : V.Body n) (eq : Equation) (env : Env) (v : Value) :
    bindLhs m p n eq env v = bindLhs m q n eq env v := by
  unfold Simulator.bindLhs
  simp only [h.store hn]

theorem Same.equationStep (hn : V.Body n) (hcs : V.SameCallees p cs cs')
    (hinfo : ClocksFrom V.name info) (hcycle : s.cycle = t.cycle)
    (hticks : s.clockTicks = t.clockTicks) (hprev : EnvAgree V.name s.prev t.prev) {a b : Env}
    (hab : EnvAgree V.name a b) (i : Nat) :
    Stateful.Related (CallsAlike V.name) (EnvAgree V.name) (equationStep m p cs n info s a i)
      (equationStep m q cs' n info t b i) := by
  unfold Simulator.equationStep
  cases heq : n.equations[i]? with
  | none => exact .pure hab
  | some eq =>
    have hactive : isActive info i a = isActive info i b := by
      unfold isActive
      cases hck : info.equationClocks[i]? with
      | none => rfl
      | some ck => exact clockActive_congr hab (hinfo.equations ck (List.mem_of_getElem? hck))
    dsimp only
    rw [hactive]
    refine (Stateful.Related.lift _).bind ?_
    rintro active _ rfl
    cases active with
    | false => exact .pure hab
    | true =>
      have hfr : V.Frames ⟨a, s, info.siteClocks⟩ ⟨b, t, info.siteClocks⟩ :=
        ⟨hab, hcycle, hticks, hprev, rfl⟩
      refine (h.eval hcs hfr eq.rhs (hn.equation eq (List.mem_of_getElem? heq)) _).bind ?_
      rintro v _ rfl
      rw [← h.bindLhs hn]
      exact .lift_agree (agree_bindLhs hab eq v)

theorem Same.equationSteps (hn : V.Body n) (hcs : V.SameCallees p cs cs')
    (hinfo : ClocksFrom V.name info) (hcycle : s.cycle = t.cycle)
    (hticks : s.clockTicks = t.clockTicks) (hprev : EnvAgree V.name s.prev t.prev)
    (order : List Nat) {a b : Env} (hab : EnvAgree V.name a b) :
    Stateful.Related (CallsAlike V.name) (EnvAgree V.name) (equationSteps m p cs n info s order a)
      (equationSteps m q cs' n info t order b) := by
  induction order generalizing a b with
  | nil => exact .pure hab
  | cons i order ih =>
    exact (h.equationStep hn hcs hinfo hcycle hticks hprev hab i).bind fun _ _ => ih

theorem Same.stepOperator (hn : V.Body n) (hcs : V.SameCallees p cs cs') (site : Site)
    (order : List Nat) {a b : Env} (hab : EnvAgree V.name a b) :
    Stateful.Related (CallsAlike V.name) (· = ·) (stepOperator m p cs site n order a)
      (stepOperator m q cs' site n order b) := by
  refine Stateful.Related.get.bind fun c d hcd => ?_
  have hstate := hcd.getD site
  have hchild := hstate.childCalls
  have hinfo := hn.clocks h
  generalize (c site).getD .initial = s at hstate hchild ⊢
  generalize (d site).getD .initial = t at hstate hchild ⊢
  cases hstate with
  | mk cycle clockTicks prev domain state =>
  refine (Stateful.Related.set (hcd.set_none site)).bind fun _ _ _ => ?_
  refine ((h.equationSteps hn hcs hinfo cycle clockTicks prev order
    (hn.reseed prev hab)).within hchild).bind ?_
  rintro ⟨a', c'⟩ ⟨b', d'⟩ ⟨hab', hcd'⟩
  replace hab' : EnvAgree V.name a' b' := hab'
  replace hcd' : CallsAlike V.name c' d' := hcd'
  have hticks : Stateful.Related (ε := Fault) (· = ·) (· = ·) (tickChains a' (clocksOf n).chains)
      (tickChains b' (clocksOf n).chains) := by
    rw [tickChains_congr hab' hinfo.chains]
    rintro s t rfl
    exact ⟨rfl, .refl _⟩
  refine (hticks.within clockTicks).bind ?_
  rintro ⟨_, ticks⟩ ⟨_, _⟩ ⟨-, rfl⟩
  refine (Stateful.Related.set (hcd.set_some site (.next cycle prev hab' ticks hcd'))).bind
    fun _ _ _ => ?_
  exact .pure (hn.extractOutput hab')

theorem Same.stepInstance (hn : V.Body n) (hcs : V.SameCallees p cs cs') (site : Site)
    (args : List Value) {a b : Env} (hab : EnvAgree V.name a b) :
    Stateful.Related (CallsAlike V.name) (· = ·) (stepInstance m p cs site n args a)
      (stepInstance m q cs' site n args b) := by
  unfold Simulator.stepInstance
  rw [← h.calleeEnv hn]
  refine (Stateful.Related.lift_agree (agree_calleeArgs args hab)).bind fun a' b' hab' => ?_
  refine (Stateful.Related.lift _).bind ?_
  rintro order _ rfl
  cases n.kind with
  | function =>
    refine (h.equationSteps hn hcs (hn.clocks h) rfl rfl (fun _ _ => rfl) order hab').bind
      fun a'' b'' hab'' => ?_
    exact .pure (hn.extractOutput hab'')
  | operator => exact h.stepOperator hn hcs site order hab'
  | imported => exact .fail _

theorem Same.callFunctionValues (hn : V.Body n) (hcs : V.SameCallees p cs cs')
    (args : List Value) {a b : Env} (hab : EnvAgree V.name a b) :
    callFunctionValues m p cs n args a = callFunctionValues m q cs' n args b := by
  unfold Simulator.callFunctionValues
  rw [← h.calleeEnv hn]
  by_cases hlen : args.length = n.inputs.length
  · simp only [hlen, ne_eq, not_true_eq_false, if_false]
    refine Except.Agree.eq ((agree_calleeArgs args hab).bind fun a' b' hab' => ?_)
    refine (Except.Agree.refl (bodyOrder n)).bind ?_
    rintro order _ rfl
    refine (h.equationSteps hn hcs ⟨by simp, by simp⟩ rfl rfl (fun _ _ => rfl) order hab' _ _
      (.empty V.name)).2.bind fun a'' b'' hab'' => ?_
    exact .ok (hn.extractOutput hab'')
  · simp only [hlen, ne_eq, not_false_eq_true, if_true]
    rfl

/-- Calls to any depth cannot be told apart. -/
theorem Same.callees (m : Machine) (depth : Nat) :
    V.SameCallees p (callees m p depth) (callees m q depth) := by
  induction depth with
  | zero => exact ⟨fun _ _ _ _ _ _ _ _ _ => .fail _, fun _ _ _ _ _ _ _ _ => rfl⟩
  | succ depth ih =>
    exact ⟨fun f n hf hn site args a b hab => h.stepInstance (h.body f hf n hn) ih site args hab,
      fun f n hf hn args a b hab => h.callFunctionValues (h.body f hf n hn) ih args hab⟩

end Nodes

section Runs

variable {x y : Sim}

/-- Two simulations that cannot be told apart. -/
structure Alike (V : View) (x y : Sim) : Prop where
  body : V.Body x.node
  node : x.node = y.node
  eqOrder : x.eqOrder = y.eqOrder
  clockInfo : x.clockInfo = y.clockInfo
  clocks : ClocksFrom V.name x.clockInfo
  consts : EnvAgree V.name x.consts y.consts
  state : StateAlike V.name x.state y.state
  callStates : CallsAlike V.name x.callStates y.callStates

theorem agree_seedPorts {prev prev' : String → Option Value} {ports : List Port}
    (hports : ∀ port ∈ ports, V.name port.name) (hprev : EnvAgree V.name prev prev') {a b : Env}
    (hab : EnvAgree V.name a b) :
    Except.Agree (EnvAgree V.name) (ports.foldlM (Sim.seedPort m p prev) a)
      (ports.foldlM (Sim.seedPort m p prev') b) := by
  induction ports generalizing a b with
  | nil => exact .ok hab
  | cons port ports ih =>
    have hname : V.name port.name := hports port List.mem_cons_self
    have hset (v : Value) : EnvAgree V.name (a.set port.name v) (b.set port.name v) :=
      (hab.set port.name v).mono fun _ => .inl
    rw [List.foldlM_cons, List.foldlM_cons]
    refine Except.Agree.bind (Q := EnvAgree V.name) ?_ fun a' b' hab' =>
      ih (fun port hport => hports port (List.mem_cons_of_mem _ hport)) hab'
    unfold Sim.seedPort
    rw [hab port.name hname, hprev port.name hname]
    cases b port.name with
    | some _ => exact .ok hab
    | none =>
      cases prev' port.name with
      | some v => exact .ok (hset v)
      | none =>
        refine (Except.Agree.refl _).map ?_
        rintro v _ rfl
        exact hset v

variable (h : V.Same p q)

include h

theorem Same.seed (hxy : V.Alike x y) (inputs : Env) :
    Except.Agree (EnvAgree V.name) (x.seed m p inputs) (y.seed m q inputs) := by
  have hdeclared (port : Port) (hport : port ∈ x.node.outputs ++ x.node.locals) :
      port ∈ x.node.declared := by
    simp only [NodeDef.declared, List.append_assoc]
    exact List.mem_append_right _ hport
  have hseed : Sim.seed m q y inputs =
      (y.node.outputs ++ y.node.locals).foldlM (Sim.seedPort m p y.state.prev)
        (Env.extend y.consts inputs) := by
    unfold Sim.seed
    refine Except.foldlM_congr (fun port hport env => ?_) _
    rw [← hxy.node] at hport
    unfold Sim.seedPort
    rw [h.defaultValue (hxy.body.type port (hdeclared port hport))]
  rw [hseed, ← hxy.node]
  refine agree_seedPorts (fun port hport => hxy.body.name port (hdeclared port hport)) ?_ ?_
  · cases hxy.state with
    | mk _ _ prev _ _ => exact prev
  · intro z hz
    simp only [Env.extend, hxy.consts z hz]

theorem Same.outputs {n : NodeDef} (hn : V.Body n) {a b : Env} (hab : EnvAgree V.name a b) :
    Sim.outputs m p n a = Sim.outputs m q n b := by
  unfold Sim.outputs
  refine Except.foldlM_congr (fun port hport out => ?_) _
  have hmem : port ∈ n.declared := by simp [NodeDef.declared, hport]
  rw [hab port.name (hn.name port hmem), h.defaultValue (hn.type port hmem)]

theorem Same.stepEnv (inputs : Env) :
    Stateful.Related V.Alike (EnvAgree V.name) (Sim.stepEnv m p inputs) (Sim.stepEnv m q inputs) := by
  intro x y hxy
  unfold Sim.stepEnv
  rcases h.seed (m := m) hxy inputs with ⟨a, b, ha, hb, hab⟩ | ⟨e, ha, hb⟩
  · obtain ⟨cycle, clockTicks, prev, domain, state⟩ := hxy.state
    obtain ⟨hcalls, hresult⟩ := h.equationSteps hxy.body (h.callees m m.stack) hxy.clocks cycle
      clockTicks prev x.eqOrder hab _ _ hxy.callStates
    rw [ha, hb, ← hxy.node, ← hxy.clockInfo, ← hxy.eqOrder]
    dsimp only
    revert hcalls hresult
    generalize Simulator.equationSteps m p _ _ _ _ _ a x.callStates = rx
    generalize Simulator.equationSteps m q _ _ _ _ _ b y.callStates = ry
    obtain ⟨rx, c⟩ := rx
    obtain ⟨ry, d⟩ := ry
    rintro hcalls (⟨a', b', rfl, rfl, hab'⟩ | ⟨e, rfl, rfl⟩)
    · dsimp only
      rw [← tickChains_congr hab' hxy.clocks.chains, ← clockTicks]
      rcases tickChains a' x.clockInfo.chains x.state.clockTicks with ⟨_ | _, ticks⟩
      · exact ⟨⟨hxy.body, rfl, rfl, rfl, hxy.clocks, hxy.consts, .mk cycle rfl prev domain state,
          hcalls⟩, .error _⟩
      · exact ⟨⟨hxy.body, rfl, rfl, rfl, hxy.clocks, hxy.consts,
          .next cycle prev hab' ticks ⟨domain, state⟩, hcalls⟩, .ok hab'⟩
    · exact ⟨⟨hxy.body, rfl, rfl, rfl, hxy.clocks, hxy.consts, hxy.state, hcalls⟩, .error e⟩
  · rw [ha, hb]
    exact ⟨hxy, .error e⟩

theorem Same.step (inputs : Env) :
    Stateful.Related V.Alike (· = ·) (Sim.step m p inputs) (Sim.step m q inputs) := by
  refine (h.stepEnv inputs).bind fun a b hab => Stateful.Related.get.bind fun x y hxy => ?_
  rw [h.outputs hxy.body hab, ← hxy.node]
  exact .lift _

/-- Every cycle has the same outputs or the same error. -/
theorem Same.run (hxy : V.Alike x y) (rows : List Env) :
    (x.run m p rows).map (·.1) = (y.run m q rows).map (·.1) := by
  induction rows generalizing x y with
  | nil => rfl
  | cons inputs rows ih =>
    obtain ⟨hxy', hresult⟩ := h.step (m := m) inputs x y hxy
    simp only [Sim.run, List.map_cons, hresult.eq, ih hxy']

end Runs

section Start

theorem evalConstant_frame {c : ConstDef} {a a' : Env} (h : evalConstant m p a c = .ok a')
    {x : String} (hx : x ≠ c.name) : a' x = a x := by
  unfold evalConstant at h
  split at h
  · obtain ⟨v, -, rfl⟩ := Except.map_eq_ok.mp h
    exact if_neg hx
  · cases h
  · cases h

variable (h : V.Same p q)

include h

theorem Same.evalConstant {c : ConstDef} (he : V.Expression c.value) (hty : V.Types c.ty)
    {a b : Env} (hab : EnvAgree V.name a b) :
    Except.Agree (EnvAgree V.name) (evalConstant m p a c) (evalConstant m q b c) := by
  have hfr : V.Frames ⟨a, .initial, []⟩ ⟨b, .initial, []⟩ :=
    ⟨hab, rfl, rfl, fun _ _ => rfl, rfl⟩
  unfold Simulator.evalConstant
  rcases (h.eval (h.callees m m.stack) hfr c.value he ⟨c.name, 0, []⟩ _ _ (.empty V.name)).2 with
    ⟨v, _, ha, hb, rfl⟩ | ⟨e, ha, hb⟩
  · rw [ha, hb]
    dsimp only
    rw [← h.fitTo hty]
    refine (Except.Agree.refl _).map ?_
    rintro w _ rfl
    exact (hab.set c.name w).mono fun _ => .inl
  · rw [ha, hb]
    cases e <;> exact .error _

/-- Constants that are not looked at can be left out. -/
theorem Same.evalConstants {keep : ConstDef → Bool} {cs : List ConstDef}
    (hkeep : ∀ c ∈ cs, keep c → V.Expression c.value ∧ V.Types c.ty)
    (hdrop : ∀ c ∈ cs, keep c = false → ¬ V.name c.name) {a b env : Env}
    (hab : EnvAgree V.name a b) (heval : cs.foldlM (Simulator.evalConstant m p) a = .ok env) :
    ∃ env', (cs.filter keep).foldlM (Simulator.evalConstant m q) b = .ok env' ∧
      EnvAgree V.name env env' := by
  induction cs generalizing a b with
  | nil =>
    cases heval
    exact ⟨b, rfl, hab⟩
  | cons c cs ih =>
    rw [List.forall_mem_cons] at hkeep hdrop
    rw [List.foldlM_cons] at heval
    obtain ⟨a', ha', heval⟩ := Except.bind_eq_ok.mp heval
    cases hc : keep c with
    | true =>
      obtain ⟨he, hty⟩ := hkeep.1 hc
      rcases h.evalConstant (m := m) he hty hab with ⟨_, b', ha, hb, hab'⟩ | ⟨e, ha, -⟩
      · obtain rfl := Except.ok.inj (ha'.symm.trans ha)
        obtain ⟨env', henv', hagree⟩ := ih hkeep.2 hdrop.2 hab' heval
        refine ⟨env', ?_, hagree⟩
        rw [List.filter_cons_of_pos hc, List.foldlM_cons, hb]
        exact henv'
      · rw [ha'] at ha
        cases ha
    | false =>
      rw [List.filter_cons_of_neg (by simp [hc])]
      refine ih hkeep.2 hdrop.2 (fun x hx => ?_) heval
      rw [← hab x hx]
      refine evalConstant_frame ha' fun hname => ?_
      exact hdrop.1 hc (hname ▸ hx)

theorem Same.new {keep : ConstDef → Bool} (hconstants : q.allConstants = p.allConstants.filter keep)
    (hkeep : ∀ c ∈ p.allConstants, keep c → V.Expression c.value ∧ V.Types c.ty)
    (hdrop : ∀ c ∈ p.allConstants, keep c = false → ¬ V.name c.name) {root : String}
    (hroot : p.findNode root = q.findNode root) (hbody : ∀ n ∈ p.findNode root, V.Body n) {x : Sim}
    (hnew : Sim.new m p root = .ok x) : ∃ y, Sim.new m q root = .ok y ∧ V.Alike x y := by
  obtain ⟨hfind, hconsts, horder, hclocks, hstate, hcalls⟩ := Sim.new_eq_ok hnew
  obtain ⟨consts, hconsts', hagree⟩ := h.evalConstants hkeep hdrop (fun _ _ => rfl) hconsts
  replace hbody := hbody x.node hfind
  refine ⟨{ x with consts := consts }, ?_, hbody, rfl, rfl, rfl, ?_, hagree, ?_, ?_⟩
  · unfold Sim.new
    rw [← hroot, hfind]
    dsimp only
    unfold Simulator.evalConstants
    rw [hconstants, hconsts', horder, ← hclocks, ← hstate, ← hcalls]
    rfl
  · exact hclocks ▸ hbody.clocks h
  · exact hstate ▸ StateAlike.initial V.name
  · exact hcalls ▸ CallsAlike.empty V.name

end Start

end View

end OpenLustre.Simulator
