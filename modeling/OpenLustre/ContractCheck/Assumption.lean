import OpenLustre.Sim.Current
import OpenLustre.Sim.Observe

/-! The check that assumptions do not depend on current outputs, against what the
observer of a contract computes. -/

namespace OpenLustre.ContractCheck

open OpenLustre.Ir

mutual

/-- Equality of expressions, in which floats are compared as numbers. -/
def sameExpr : Expr → Expr → Bool
  | .const (.float x), .const (.float y) => x.eq y
  | .const a, .const b => decide (a = b)
  | .var a, .var b => decide (a = b)
  | .unary op a, .unary op' a' => decide (op = op') && sameExpr a a'
  | .binary op a b, .binary op' a' b' => decide (op = op') && sameExpr a a' && sameExpr b b'
  | .ifThenElse c t e, .ifThenElse c' t' e' => sameExpr c c' && sameExpr t t' && sameExpr e e'
  | .pre a, .pre a' => sameExpr a a'
  | .arrow a b, .arrow a' b' => sameExpr a a' && sameExpr b b'
  | .call f as, .call f' as' => decide (f = f') && sameList as as'
  | .field a f, .field a' f' => sameExpr a a' && decide (f = f')
  | .index a i, .index a' i' => sameExpr a a' && sameExpr i i'
  | .tuple as, .tuple as' => sameList as as'
  | .array as, .array as' => sameList as as'
  | .struct ty fs, .struct ty' fs' => decide (ty = ty') && sameFields fs fs'
  | .cast ty a, .cast ty' a' => decide (ty = ty') && sameExpr a a'
  | .when a ck on, .when a' ck' on' => sameExpr a a' && decide (ck = ck') && decide (on = on')
  | .merge ck t f, .merge ck' t' f' => decide (ck = ck') && sameExpr t t' && sameExpr f f'
  | .iterate k f none as, .iterate k' f' none as' =>
    decide (k = k') && decide (f = f') && sameList as as'
  | .iterate k f (some i) as, .iterate k' f' (some i') as' =>
    decide (k = k') && decide (f = f') && sameExpr i i' && sameList as as'
  | _, _ => false

def sameList : List Expr → List Expr → Bool
  | [], [] => true
  | a :: as, a' :: as' => sameExpr a a' && sameList as as'
  | _, _ => false

def sameFields : List (String × Expr) → List (String × Expr) → Bool
  | [], [] => true
  | (f, a) :: fs, (f', a') :: fs' => decide (f = f') && sameExpr a a' && sameFields fs fs'
  | _, _ => false

end

/-- The value of a Boolean expression, where its shape alone gives it. -/
def staticTruth : Expr → Option Bool
  | .const (.bool value) => some value
  | .unary .not arg => (staticTruth arg).map (!·)
  | .binary op lhs rhs =>
    let l := staticTruth lhs
    let r := staticTruth rhs
    match op with
    | .and =>
      match l, r with
      | some false, _ | _, some false => some false
      | some true, some true => some true
      | _, _ => none
    | .or =>
      match l, r with
      | some true, _ | _, some true => some true
      | some false, some false => some false
      | _, _ => none
    | .implies =>
      match l, r with
      | some false, _ | _, some true => some true
      | some true, some false => some false
      | _, _ => none
    | .eq =>
      if sameExpr lhs rhs then some true
      else
        match l, r with
        | some a, some b => some (a == b)
        | _, _ => none
    | .neq =>
      if sameExpr lhs rhs then some false
      else
        match l, r with
        | some a, some b => some (a != b)
        | _, _ => none
    | _ => none
  | _ => none

mutual

/-- Every occurrence of `name` as a variable is under a `pre`. -/
def walk (name : String) : Expr → Bool → Bool
  | .var n, inPre => if n = name then inPre else true
  | .const _, _ => true
  | .pre arg, _ => walk name arg true
  | .arrow init body, inPre => walk name init inPre && walk name body inPre
  | .unary _ arg, inPre | .cast _ arg, inPre => walk name arg inPre
  | .binary _ lhs rhs, inPre => walk name lhs inPre && walk name rhs inPre
  | .ifThenElse c t e, inPre => walk name c inPre && walk name t inPre && walk name e inPre
  | .call _ args, inPre => walkList name args inPre
  | .field base _, inPre => walk name base inPre
  | .index base i, inPre => walk name base inPre && walk name i inPre
  | .tuple items, inPre | .array items, inPre => walkList name items inPre
  | .struct _ fields, inPre => walkFields name fields inPre
  -- the clocks of `when` and `merge` are not looked at
  | .when arg _ _, inPre => walk name arg inPre
  | .merge _ t f, inPre => walk name t inPre && walk name f inPre
  | .iterate _ _ none arrays, inPre => walkList name arrays inPre
  | .iterate _ _ (some init) arrays, inPre => walk name init inPre && walkList name arrays inPre

def walkList (name : String) : List Expr → Bool → Bool
  | [], _ => true
  | e :: es, inPre => walk name e inPre && walkList name es inPre

def walkFields (name : String) : List (String × Expr) → Bool → Bool
  | [], _ => true
  | (_, e) :: fields, inPre => walk name e inPre && walkFields name fields inPre

end

def isTemporalReference (e : Expr) (name : String) : Bool := walk name e false

/-- The diagnostics of one assumption. -/
def checkAssumption (a : Clause) (idx : Nat) (inputNames outputNames globals : List String)
    (ctx : String) : List Diagnostic :=
  let label := a.name.getD ("#" ++ toString idx)
  let reads := a.expr.freeVars.flatMap fun v =>
    (if outputNames.contains v && !isTemporalReference a.expr v then
      [Diagnostic.error "C0020" ("assumption `" ++ label ++ "` depends on current output `" ++ v ++
        "`; assumptions may only refer to inputs or previous outputs") [ctx]]
    else []) ++
    (if !inputNames.contains v && !outputNames.contains v && !globals.contains v then
      [Diagnostic.warning "C0021" ("assumption `" ++ label ++ "` references `" ++ v ++
        "`, which is not in the contract interface") [ctx]]
    else [])
  reads ++
    (if staticTruth a.expr = some false then
      [Diagnostic.warning "C0063" ("assumption `" ++ label ++
        "` is statically false — the contract can never be entered") [ctx]]
    else [])

def inputNames (c : ContractDef) : List String := c.inputs.map (·.name)

def outputNames (c : ContractDef) : List String := c.outputs.map (·.name)

/-- The diagnostics of the assumptions of a contract. -/
def checkAssumptions (c : ContractDef) (globals : List String) : List Diagnostic :=
  c.assumptions.zipIdx.flatMap fun (a, i) =>
    checkAssumption a i (inputNames c) (outputNames c) globals ("contract " ++ c.name)

section

variable {name : String} {e : Expr} {inPre : Bool}

theorem walkList_eq_false {es : List Expr} (h : walkList name es inPre = false) :
    ∃ e ∈ es, walk name e inPre = false := by
  induction es with
  | nil => cases h
  | cons e es ih =>
    rw [walkList, Bool.and_eq_false_iff] at h
    rcases h with h | h
    · exact ⟨e, List.mem_cons_self, h⟩
    · obtain ⟨c, hc, h⟩ := ih h
      exact ⟨c, List.mem_cons_of_mem _ hc, h⟩

theorem walkFields_eq_false {fields : List (String × Expr)}
    (h : walkFields name fields inPre = false) : ∃ f ∈ fields, walk name f.2 inPre = false := by
  induction fields with
  | nil => cases h
  | cons f fields ih =>
    rw [walkFields, Bool.and_eq_false_iff] at h
    rcases h with h | h
    · exact ⟨f, List.mem_cons_self, h⟩
    · obtain ⟨g, hg, h⟩ := ih h
      exact ⟨g, List.mem_cons_of_mem _ hg, h⟩

/-- What the walk objects to is a variable of the expression. -/
theorem var_of_walk (h : walk name e inPre = false) : .var name ∈ e.subterms := by
  induction e generalizing inPre with
  | const => cases h
  | var n =>
    simp only [walk] at h
    split at h
    · next heq =>
      rw [heq]
      exact Expr.self_mem_subterms _
    · cases h
  | unary _ arg ih | cast _ arg ih | when arg _ _ ih | field arg _ ih | pre arg ih =>
    exact List.mem_cons_of_mem _ (ih h)
  | binary _ l r ihl ihr | arrow l r ihl ihr | index l r ihl ihr | merge _ l r ihl ihr =>
    rw [walk, Bool.and_eq_false_iff] at h
    exact List.mem_cons_of_mem _ (List.mem_append.mpr (h.imp ihl ihr))
  | ifThenElse c t e ihc iht ihe =>
    rw [walk, Bool.and_eq_false_iff, Bool.and_eq_false_iff, or_assoc] at h
    exact List.mem_cons_of_mem _ (List.mem_append.mpr (h.imp ihc fun h =>
      List.mem_append.mpr (h.imp iht ihe)))
  | call _ items ih | tuple items ih | array items ih =>
    obtain ⟨c, hc, h⟩ := walkList_eq_false h
    exact Expr.subterms_of_child hc (ih c hc h)
  | struct _ fields ih =>
    obtain ⟨f, hf, h⟩ := walkFields_eq_false h
    exact Expr.subterms_of_child (List.mem_map_of_mem hf) (ih f hf h)
  | iterate kind node init arrays ihi iha =>
    cases init with
    | none =>
      obtain ⟨c, hc, h⟩ := walkList_eq_false h
      exact Expr.subterms_of_child hc (iha c hc h)
    | some seed =>
      rw [walk, Bool.and_eq_false_iff] at h
      rcases h with h | h
      · exact Expr.subterms_of_child List.mem_cons_self (ihi seed rfl h)
      · obtain ⟨c, hc, h⟩ := walkList_eq_false h
        exact Expr.subterms_of_child (List.mem_cons_of_mem _ hc) (iha c hc h)

/-- Without a report, what an assumption reads of the outputs is under `pre`, by the
check's reckoning. -/
theorem temporal_of_unreported {c : ContractDef} {globals : List String} {k : Nat} {a : Clause}
    {x : String} (h : ∀ d ∈ checkAssumptions c globals, d.code ≠ "C0020")
    (ha : c.assumptions[k]? = some a) (hx : x ∈ outputNames c) :
    isTemporalReference a.expr x = true := by
  by_contra hwalk
  rw [Bool.not_eq_true] at hwalk
  have hfree : x ∈ a.expr.freeVars := Expr.mem_freeVars.mpr ⟨.var x, var_of_walk hwalk, rfl⟩
  let d := Diagnostic.error "C0020" ("assumption `" ++ a.name.getD ("#" ++ toString k) ++
    "` depends on current output `" ++ x ++
    "`; assumptions may only refer to inputs or previous outputs") ["contract " ++ c.name]
  have hd : d ∈ checkAssumption a k (inputNames c) (outputNames c) globals ("contract " ++ c.name) := by
    refine List.mem_append_left _ (List.mem_flatMap.mpr ⟨x, hfree, List.mem_append_left _ ?_⟩)
    simp [hx, hwalk, d]
  exact h d (List.mem_flatMap.mpr ⟨(a, k), List.mem_zipIdx_iff_getElem?.mpr ha, hd⟩) rfl

end

end OpenLustre.ContractCheck

namespace OpenLustre.ContractCheck

open OpenLustre.Ir OpenLustre.ContractIr OpenLustre.Simulator

/-- The port of the observer that carries assumption `k`. -/
def assumptionPort (k : Nat) : String := "ol_a" ++ toString k

/-- An output reaches assumption `k` in the current cycle by a way that the check does
not follow: through another variable, a clock, a name that a called node takes from its
caller, or the port's own name. -/
def Detour (p : Project) (c : ContractDef) (k : Nat) : Prop :=
  let n := (ContractDef.observer c).node
  let outputs := fun x => x ∈ outputNames c
  outputs (assumptionPort k) ∨
  ∃ i eq x, n.equations[i]? = some eq ∧ assumptionPort k ∈ eq.lhs ∧ DependsNow p n i x ∧
    Affected p n outputs x ∧
    (i = c.ghostVars.length + k → outputs x → isTemporalReference eq.rhs x = true)

/-- The values of the clauses of a contract in the cycles of a run, given the inputs
and outputs of each. -/
def clauseTrace (m : Machine) (p : Project) (c : ContractDef) (consts : Env) :
    List (Env × Env) → EvalM (List (List Bool))
  | [] => pure []
  | (inputs, outputs) :: rows => do
    let values ← MonitoredSim.clauseValues m p c (ContractDef.observer c) consts inputs outputs
    let rest ← clauseTrace m p c consts rows
    pure (values :: rest)

section

variable {p : Project} {c : ContractDef} {k : Nat} {a : Clause}

theorem assumptionPort_inj {k l : Nat} (h : assumptionPort k = assumptionPort l) : k = l := by
  have hdigits : Nat.toDigits 10 k = Nat.toDigits 10 l := by
    have htext : toString k = toString l := (String.append_right_inj _).mp h
    rw [Nat.toString_eq_ofList_toDigits, Nat.toString_eq_ofList_toDigits] at htext
    exact String.ofList_injective htext
  rw [← Nat.ofDigitChars_ten_toDigits (n := k), hdigits, Nat.ofDigitChars_ten_toDigits]

theorem signalClauses_getElem? (h : c.assumptions[k]? = some a) :
    (ContractDef.signalClauses c)[k]? =
      some (.assumption k (ContractDef.clauseLabel "assumption" k a), assumptionPort k, a.expr) := by
  have hlt := (List.getElem?_eq_some_iff.mp h).1
  rw [ContractDef.signalClauses, List.append_assoc, List.getElem?_append_left (by simpa using hlt)]
  simp [h, assumptionPort]

/-- What the check accepts and no detour reaches is not affected by the outputs. -/
theorem not_affected_of_no_detour {globals : List String}
    (hchecked : ∀ d ∈ checkAssumptions c globals, d.code ≠ "C0020") (hdetour : ¬ Detour p c k)
    (ha : c.assumptions[k]? = some a) :
    ¬ Affected p (ContractDef.observer c).node (fun x => x ∈ outputNames c) (assumptionPort k) := by
  intro haffected
  have hequation : (ContractDef.observer c).node.equations[c.ghostVars.length + k]? =
      some ⟨[assumptionPort k], a.expr⟩ := by
    simp only [ContractDef.observer]
    rw [List.getElem?_append_right (by simp)]
    simp [signalClauses_getElem? ha]
  cases haffected with
  | source h => exact hdetour (.inl h)
  | equation heq hlhs hdepends hx =>
    refine hdetour (.inr ⟨_, _, _, heq, hlhs, hdepends, hx, fun hi houtput => ?_⟩)
    rw [hi, hequation] at heq
    cases heq
    exact temporal_of_unreported hchecked ha houtput

end

section

variable {m : Machine} {p : Project} {n : NodeDef} {sources : String → Prop} {a b : Env}

/-- Values that only the sources may differ in, of the same number types. -/
def Aside (sources : String → Prop) (a b : Env) : Prop :=
  ∀ x, (¬ sources x → a x = b x) ∧ (a x).bind Value.numberType = (b x).bind Value.numberType

/-- The number type of a value once it is assigned. -/
def fittedType (p : Project) : Nat → Ty → Option NumberType → Option NumberType
  | 0, _, kind => kind
  | fuel + 1, ty, kind =>
    match ty with
    | .float32 => kind.map fun _ => .single
    | .float64 => kind.map fun _ => .double
    | .named name =>
      match findType p name with
      | some (.aliasOf _ target) => fittedType p fuel target kind
      | _ => kind
    | _ => kind

theorem numberType_fitTo {fuel : Nat} {ty : Ty} {v w : Value} (h : fitTo p fuel ty v = .ok w) :
    w.numberType = fittedType p fuel ty v.numberType := by
  induction fuel generalizing ty v with
  | zero => cases h
  | succ fuel ih =>
    cases ty with
    | named name =>
      simp only [fitTo] at h
      simp only [fittedType]
      split at h
      · next hrecord =>
        obtain ⟨r, -, rfl⟩ := Except.map_eq_ok.mp h
        rw [hrecord]
        rfl
      · next halias =>
        rw [halias]
        exact ih h
      · next hother _ =>
        cases h
        split
        · next halias => exact (hother _ _ halias).elim
        · rfl
    | array elem len =>
      cases v with
      | array xs =>
        obtain ⟨ys, -, rfl⟩ := Except.map_eq_ok.mp h
        rfl
      | _ =>
        cases h
        rfl
    | _ =>
      cases v with
      | _ =>
        cases h
        rfl

theorem Aside.refl (sources : String → Prop) (a : Env) : Aside sources a a :=
  fun _ => ⟨fun _ => rfl, rfl⟩

theorem Aside.set (h : Aside sources a b) {x : String} {v w : Value}
    (hvw : ¬ sources x → v = w) (hkind : v.numberType = w.numberType) :
    Aside sources (a.set x v) (b.set x w) := by
  intro y
  unfold Env.set
  split
  · next heq => exact ⟨fun hy => congrArg some (hvw (heq ▸ hy)), hkind⟩
  · exact h y

/-- Arguments that differ in the sources only, in values of the same number types. -/
theorem aside_inputs {ports : List Port} {read read' : Port → Except Fault Value}
    (hread : ∀ port ∈ ports, ∀ v w, read port = .ok v → read' port = .ok w →
      (¬ sources port.name → v = w) ∧ v.numberType = w.numberType)
    {args args' : List Value} (hargs : ports.mapM read = .ok args)
    (hargs' : ports.mapM read' = .ok args') {a' b' : Env} (h : Aside sources a b)
    (ha : (ports.zip args).foldlM (fun env ((port : Port), v) =>
      (fitTo p m.stack port.ty v).map (env.set port.name)) a = .ok a')
    (hb : (ports.zip args').foldlM (fun env ((port : Port), v) =>
      (fitTo p m.stack port.ty v).map (env.set port.name)) b = .ok b') : Aside sources a' b' := by
  induction ports generalizing args args' a b with
  | nil =>
    cases ha
    cases hb
    exact h
  | cons port ports ih =>
    rw [List.forall_mem_cons] at hread
    rw [List.mapM_cons] at hargs hargs'
    obtain ⟨v, hv, hargs⟩ := Except.bind_eq_ok.mp hargs
    obtain ⟨vs, hvs, hargs⟩ := Except.bind_eq_ok.mp hargs
    obtain ⟨w, hw, hargs'⟩ := Except.bind_eq_ok.mp hargs'
    obtain ⟨ws, hws, hargs'⟩ := Except.bind_eq_ok.mp hargs'
    cases hargs
    cases hargs'
    rw [List.zip_cons_cons, List.foldlM_cons] at ha hb
    obtain ⟨a₁, ha₁, ha⟩ := Except.bind_eq_ok.mp ha
    obtain ⟨b₁, hb₁, hb⟩ := Except.bind_eq_ok.mp hb
    obtain ⟨v', hv', rfl⟩ := Except.map_eq_ok.mp ha₁
    obtain ⟨w', hw', rfl⟩ := Except.map_eq_ok.mp hb₁
    obtain ⟨hsame, hkind⟩ := hread.1 v w hv hw
    refine ih hread.2 hvs hws (h.set (fun hport => ?_) ?_) ha hb
    · cases hsame hport
      exact Except.ok.inj (hv'.symm.trans hw')
    · rw [numberType_fitTo hv', numberType_fitTo hw', hkind]

theorem aside_defaults {ports : List Port} {a' b' : Env} (h : Aside sources a b)
    (ha : ports.foldlM (fun env (port : Port) =>
      (defaultValue p m.stack port.ty).map (env.set port.name)) a = .ok a')
    (hb : ports.foldlM (fun env (port : Port) =>
      (defaultValue p m.stack port.ty).map (env.set port.name)) b = .ok b') : Aside sources a' b' := by
  induction ports generalizing a b with
  | nil =>
    cases ha
    cases hb
    exact h
  | cons port ports ih =>
    rw [List.foldlM_cons] at ha hb
    obtain ⟨a₁, ha₁, ha⟩ := Except.bind_eq_ok.mp ha
    obtain ⟨b₁, hb₁, hb⟩ := Except.bind_eq_ok.mp hb
    obtain ⟨v, hv, rfl⟩ := Except.map_eq_ok.mp ha₁
    obtain ⟨w, hw, rfl⟩ := Except.map_eq_ok.mp hb₁
    obtain rfl : v = w := Except.ok.inj (hv.symm.trans hw)
    exact ih (h.set (fun _ => rfl) rfl) ha hb

theorem Aside.reseed (h : Aside sources a b) (prev : String → Option Value) :
    Aside sources (reseed n prev a) (reseed n prev b) := by
  unfold Simulator.reseed
  induction n.outputs ++ n.locals generalizing a b with
  | nil => exact h
  | cons port ports ih =>
    refine ih ?_
    dsimp only
    cases prev port.name with
    | none => exact h
    | some v => exact h.set (fun _ => rfl) rfl

/-- What starts a cycle with values that only the sources differ in. -/
theorem Aside.differ (h : Aside sources a b) : Differ p n sources a b :=
  ⟨fun x hx => (h x).1 fun hsource => hx (.source hsource), fun x _ => (h x).2⟩

theorem takeOutputs_length (ports : List Port) (env : Env) :
    (takeOutputs ports env).length = ports.length := by
  induction ports generalizing env with
  | nil => rfl
  | cons port ports ih => simp [takeOutputs, ih]

/-- A result is taken from the variable of its port, unless a port before has its
name. -/
theorem takeOutputs_getElem? {ports : List Port} {k : Nat} {port : Port} (hport : ports[k]? = some port)
    (hfirst : ∀ j < k, ∀ q, ports[j]? = some q → q.name ≠ port.name) (env : Env) :
    (takeOutputs ports env)[k]? = some ((env port.name).getD (.bool false)) := by
  induction ports generalizing k env with
  | nil => simp at hport
  | cons q ports ih =>
    cases k with
    | zero =>
      cases hport
      rfl
    | succ k =>
      have hne : q.name ≠ port.name := hfirst 0 (Nat.succ_pos k) q rfl
      have htail := ih hport (fun j hj q hq => hfirst (j + 1) (Nat.succ_lt_succ hj) q hq)
        (env.unset q.name)
      rw [takeOutputs, List.getElem?_cons_succ, htail]
      simp [Env.unset, hne.symm]

theorem signalValues_getElem? {k : Nat}
    (h : (takeOutputs n.outputs a)[k]? = (takeOutputs n.outputs b)[k]?) (hlt : k < n.outputs.length) :
    (MonitoredSim.signalValues (extractOutput n a))[k]? =
      (MonitoredSim.signalValues (extractOutput n b))[k]? := by
  have hvs := takeOutputs_length n.outputs a
  have hws := takeOutputs_length n.outputs b
  unfold extractOutput
  generalize takeOutputs n.outputs a = vs at h hvs
  generalize takeOutputs n.outputs b = ws at h hws
  match vs, ws with
  | [v], [w] =>
    obtain rfl : k = 0 := by simpa [← hvs] using hlt
    cases h
    rfl
  | v :: v' :: vs, w :: w' :: ws => simp only [MonitoredSim.signalValues, List.getElem?_map, h]
  | [], [] => rfl
  | [], _ :: _ | _ :: _, [] | [_], _ :: _ :: _ | _ :: _ :: _, [_] => simp [← hvs] at hws

end

section

variable {m : Machine} {p : Project} {c : ContractDef} {consts inputs outputs outputs' : Env}
  {calls calls' calls'' : Calls} {k : Nat} {a : Clause}

/-- A cycle of the observer that returns. -/
theorem clauseValues_eq_ok {values : List Bool} (ha : c.assumptions[k]? = some a)
    (h : MonitoredSim.clauseValues m p c (ContractDef.observer c) consts inputs outputs calls =
      (.ok values, calls')) :
    let n := (ContractDef.observer c).node
    let state := (calls MonitoredSim.observerSite).getD .initial
    ∃ args env order final childCalls,
      n.inputs.mapM (MonitoredSim.observerArg c inputs outputs) = .ok args ∧
      calleeEnv m p n args consts = .ok env ∧ evaluationOrder n = .ok order ∧
      equationSteps m p (callees m p m.stack) n (clocksOf n) state order (reseed n state.prev env)
        state.childCalls = (.ok final, childCalls) ∧
      values = MonitoredSim.signalValues (extractOutput n final) := by
  intro n state
  unfold MonitoredSim.clauseValues at h
  obtain ⟨args, _, hlift, h⟩ := Stateful.bind_eq_ok.mp h
  obtain ⟨hargs, rfl⟩ := Stateful.lift_eq_ok.mp hlift
  have hsignals : (ContractDef.observer c).signals.isEmpty = false := by
    have hclause := signalClauses_getElem? ha
    cases hclauses : ContractDef.signalClauses c with
    | nil => simp [hclauses] at hclause
    | cons clause clauses => simp [ContractDef.observer, hclauses]
  rw [hsignals, if_neg Bool.false_ne_true] at h
  obtain ⟨out, _, hstep, h⟩ := Stateful.bind_eq_ok.mp h
  cases h
  unfold stepInstance at hstep
  obtain ⟨env, _, hlift₁, hstep⟩ := Stateful.bind_eq_ok.mp hstep
  obtain ⟨henv, rfl⟩ := Stateful.lift_eq_ok.mp hlift₁
  obtain ⟨order, _, hlift₂, hstep⟩ := Stateful.bind_eq_ok.mp hstep
  obtain ⟨horder, rfl⟩ := Stateful.lift_eq_ok.mp hlift₂
  obtain ⟨_, _, hget, hstep⟩ := Stateful.bind_eq_ok.mp hstep
  cases hget
  obtain ⟨_, _, hset, hstep⟩ := Stateful.bind_eq_ok.mp hstep
  cases hset
  obtain ⟨⟨final, childCalls⟩, _, hwithin, hstep⟩ := Stateful.bind_eq_ok.mp hstep
  obtain ⟨⟨_, ticks⟩, _, -, hstep⟩ := Stateful.bind_eq_ok.mp hstep
  obtain ⟨_, _, -, hstep⟩ := Stateful.bind_eq_ok.mp hstep
  cases hstep
  exact ⟨args, env, order, final, childCalls, hargs, henv, Except.mapError_eq_ok.mp horder,
    (Stateful.within_eq_ok.mp hwithin).1, rfl⟩

/-- An argument of the observer is the same in both runs, but for the outputs. -/
theorem observerArg_aside (houtputs : ∀ x, x ∉ outputNames c → outputs x = outputs' x)
    (hkinds : ∀ x, (outputs x).bind Value.numberType = (outputs' x).bind Value.numberType)
    (port : Port) (v w : Value) (hv : MonitoredSim.observerArg c inputs outputs port = .ok v)
    (hw : MonitoredSim.observerArg c inputs outputs' port = .ok w) :
    (port.name ∉ outputNames c → v = w) ∧ v.numberType = w.numberType := by
  unfold MonitoredSim.observerArg at hv hw
  cases hinput : inputs port.name with
  | some u =>
    simp only [hinput, Option.some_or, Except.ok.injEq] at hv hw
    cases hv
    cases hw
    exact ⟨fun _ => rfl, rfl⟩
  | none =>
    have hkind := hkinds port.name
    simp only [hinput, Option.none_or] at hv hw
    cases hout : outputs port.name with
    | none =>
      rw [hout] at hv
      cases hv
    | some v' =>
      cases hout' : outputs' port.name with
      | none =>
        rw [hout'] at hw
        cases hw
      | some w' =>
        simp only [hout, hout', Except.ok.injEq] at hv hw
        cases hv
        cases hw
        refine ⟨fun hport => ?_, by simpa [hout, hout'] using hkind⟩
        simpa [hout, hout'] using houtputs port.name hport

/-- In one cycle, from the same instances. -/
theorem assumption_cycle (hp : FunctionsStateless p) {globals : List String}
    (hchecked : ∀ d ∈ checkAssumptions c globals, d.code ≠ "C0020") (hdetour : ¬ Detour p c k)
    (ha : c.assumptions[k]? = some a)
    (houtputs : ∀ x, x ∉ outputNames c → outputs x = outputs' x)
    (hkinds : ∀ x, (outputs x).bind Value.numberType = (outputs' x).bind Value.numberType)
    {values values' : List Bool}
    (h : MonitoredSim.clauseValues m p c (ContractDef.observer c) consts inputs outputs calls =
      (.ok values, calls'))
    (h' : MonitoredSim.clauseValues m p c (ContractDef.observer c) consts inputs outputs' calls =
      (.ok values', calls'')) : values[k]? = values'[k]? := by
  obtain ⟨args, env, order, final, childCalls, hargs, henv, horder, hsteps, rfl⟩ :=
    clauseValues_eq_ok ha h
  obtain ⟨args', env', order', final', childCalls', hargs', henv', horder', hsteps', rfl⟩ :=
    clauseValues_eq_ok ha h'
  obtain rfl : order = order' := Except.ok.inj (horder.symm.trans horder')
  obtain ⟨a₁, ha₁, henv⟩ := Except.bind_eq_ok.mp henv
  obtain ⟨b₁, hb₁, henv'⟩ := Except.bind_eq_ok.mp henv'
  have hseed : Aside (fun x => x ∈ outputNames c) env env' := by
    refine aside_defaults (aside_inputs (fun port _ => ?_) hargs hargs' (.refl _ consts) ha₁ hb₁)
      henv henv'
    exact observerArg_aside houtputs hkinds port
  have hnodup : order.Nodup := (evaluationOrder_placed horder).1.nodup
  have hdiffer := differ_equationSteps (calleesAlike m hp m.stack).1 hnodup
    ((hseed.reseed _).differ (p := p)) (fun _ _ => rfl) hsteps hsteps'
  have hport := hdiffer.agree _ (not_affected_of_no_detour hchecked hdetour ha)
  have hclause (j : Nat) (clause : Clause) (hj : c.assumptions[j]? = some clause) :
      (ContractDef.observer c).node.outputs[j]? = some ⟨assumptionPort j, .bool⟩ := by
    simp [ContractDef.observer, signalClauses_getElem? hj]
  have hlt := (List.getElem?_eq_some_iff.mp (hclause k a ha)).1
  have htake (env : Env) : (takeOutputs (ContractDef.observer c).node.outputs env)[k]? =
      some ((env (assumptionPort k)).getD (.bool false)) := by
    refine takeOutputs_getElem? (hclause k a ha) (fun j hj q hq hname => ?_) env
    have hjlt : j < c.assumptions.length := hj.trans (List.getElem?_eq_some_iff.mp ha).1
    rw [hclause j _ (List.getElem?_eq_getElem hjlt)] at hq
    cases hq
    exact Nat.ne_of_lt hj (assumptionPort_inj hname)
  exact signalValues_getElem? (by rw [htake, htake, hport]) hlt

end

/-- Two runs that agree on all inputs up to cycle `n` and on the outputs before it, and
whose outputs in cycle `n` are numbers of the same C types, give an assumption without
`C0020` one value in that cycle, where no output reaches it by a detour. -/
theorem assumption_determined (m : Machine) (p : Project) (hp : FunctionsStateless p)
    (c : ContractDef) (globals : List String)
    (hchecked : ∀ d ∈ checkAssumptions c globals, d.code ≠ "C0020") (k : Nat) (a : Clause)
    (ha : c.assumptions[k]? = some a) (hdetour : ¬ Detour p c k) (consts : Env)
    (rows rows' : List (Env × Env)) (n : Nat) (hbefore : rows.take n = rows'.take n)
    (inputs outputs outputs' : Env) (hrow : rows[n]? = some (inputs, outputs))
    (hrow' : rows'[n]? = some (inputs, outputs'))
    (houtputs : ∀ x, x ∉ outputNames c → outputs x = outputs' x)
    (hkinds : ∀ x, (outputs x).bind Value.numberType = (outputs' x).bind Value.numberType)
    (calls : Calls) (values values' : List (List Bool))
    (htrace : (clauseTrace m p c consts rows calls).1 = .ok values)
    (htrace' : (clauseTrace m p c consts rows' calls).1 = .ok values') :
    values[n]?.bind (·[k]?) = values'[n]?.bind (·[k]?) := by
  induction n generalizing rows rows' calls values values' with
  | zero =>
    match rows, rows' with
    | [], _ => cases hrow
    | _, [] => cases hrow'
    | row :: rows, row' :: rows' =>
      cases hrow
      cases hrow'
      obtain ⟨cells, _, hcells, h⟩ := Stateful.bind_eq_ok.mp (Prod.ext htrace rfl)
      obtain ⟨cells', _, hcells', h'⟩ := Stateful.bind_eq_ok.mp (Prod.ext htrace' rfl)
      obtain ⟨rest, _, -, h⟩ := Stateful.bind_eq_ok.mp h
      obtain ⟨rest', _, -, h'⟩ := Stateful.bind_eq_ok.mp h'
      cases h
      cases h'
      exact assumption_cycle hp hchecked hdetour ha houtputs hkinds hcells hcells'
  | succ n ih =>
    match rows, rows' with
    | [], _ => cases hrow
    | _, [] => cases hrow'
    | row :: rows, row' :: rows' =>
      obtain ⟨rfl, hrest⟩ := List.cons.inj hbefore
      obtain ⟨cells, calls₁, hcells, h⟩ := Stateful.bind_eq_ok.mp (Prod.ext htrace rfl)
      obtain ⟨cells', calls₂, hcells', h'⟩ := Stateful.bind_eq_ok.mp (Prod.ext htrace' rfl)
      rw [hcells] at hcells'
      cases hcells'
      obtain ⟨rest, _, hrest₁, h⟩ := Stateful.bind_eq_ok.mp h
      obtain ⟨rest', _, hrest₂, h'⟩ := Stateful.bind_eq_ok.mp h'
      cases h
      cases h'
      exact ih rows rows' hrest hrow hrow' calls₁ rest rest' (congrArg (·.1) hrest₁)
        (congrArg (·.1) hrest₂)

/-- A contract with an output `y`, one ghost variable and one assumption. -/
def overOutput (ghost assumption : Expr) : ContractDef where
  name := "C"
  inputs := []
  outputs := [⟨"y", .bool⟩]
  ghostVars := [⟨"g", .bool, ghost⟩]
  assumptions := [⟨none, assumption⟩]

theorem not_dependsNow_previous {i : Nat} {eq : Equation} {x : String} :
    let n := (ContractDef.observer (overOutput (.var "y")
      (.arrow (.const (.bool true)) (.pre (.var "g"))))).node
    n.equations[i]? = some eq → assumptionPort 0 ∈ eq.lhs →
      ¬ DependsNow { packages := [] } n i x := by
  intro n heq hlhs hdepends
  have hport : assumptionPort 0 = "ol_a0" := by decide +kernel
  have hi : i = 1 ∧ eq.rhs = .arrow (.const (.bool true)) (.pre (.var "g")) := by
    match i with
    | 0 =>
      cases heq
      simp [hport] at hlhs
    | 1 =>
      cases heq
      exact ⟨rfl, rfl⟩
    | i + 2 => cases heq
  obtain ⟨rfl, hrhs⟩ := hi
  have hclocks : (clocksOf n).equationClocks = [] := rfl
  cases hdepends with
  | read heq' hx =>
    obtain rfl := Option.some.inj (heq.symm.trans heq')
    simp [hrhs, sameCycleReads] at hx
  | clock hck _ => simp [hclocks] at hck
  | notice heq' hx =>
    obtain rfl := Option.some.inj (heq.symm.trans heq')
    rcases hx with ⟨f, args, c, hmem, -⟩ | ⟨kind, f, init, arrays, c, hmem, -⟩
    · simp [hrhs, Expr.subterms] at hmem
    · simp [hrhs, Expr.subterms] at hmem
  | kind heq' hx _ =>
    obtain rfl := Option.some.inj (heq.symm.trans heq')
    simp [hrhs, kindReads, Expr.subterms, branchReads, neverSingle, realReads] at hx

theorem eq_ok_of_toOption {α : Type} {x : Except Fault α} {a : α} (h : x.toOption = some a) :
    x = .ok a := by
  cases x <;> simp_all [Except.toOption]

/-- An assumption about the previous value of the ghost variable `g = y`. -/
theorem assumption_determined_previous :
    let c := overOutput (.var "y") (.arrow (.const (.bool true)) (.pre (.var "g")))
    let none : Env := fun _ => none
    let rows (now : Bool) := [(none, none.set "y" (.bool true)), (none, none.set "y" (.bool now))]
    ∃ values values',
      (clauseTrace ⟨true, 8⟩ { packages := [] } c none (rows true) Calls.empty).1 = .ok values ∧
      (clauseTrace ⟨true, 8⟩ { packages := [] } c none (rows false) Calls.empty).1 = .ok values' ∧
      values[1]?.bind (·[0]?) = values'[1]?.bind (·[0]?) := by
  intro c none rows
  have hvalues : (clauseTrace ⟨true, 8⟩ { packages := [] } c none (rows true) Calls.empty).1 =
      .ok [[true], [true]] := eq_ok_of_toOption (by decide +kernel)
  have hvalues' : (clauseTrace ⟨true, 8⟩ { packages := [] } c none (rows false) Calls.empty).1 =
      .ok [[true], [true]] := eq_ok_of_toOption (by decide +kernel)
  refine ⟨_, _, hvalues, hvalues', assumption_determined ⟨true, 8⟩ { packages := [] } ?_ c [] ?_ 0
    ⟨Option.none, .arrow (.const (.bool true)) (.pre (.var "g"))⟩ rfl ?_ none (rows true)
    (rows false) 1 rfl none (none.set "y" (.bool true)) (none.set "y" (.bool false)) rfl rfl ?_ ?_
    Calls.empty _ _ hvalues hvalues'⟩
  · intro n hn
    simp [Project.allNodes] at hn
  · decide +kernel
  · rintro (houtput | ⟨i, eq, x, heq, hlhs, hdepends, -⟩)
    · exact absurd houtput (by decide +kernel)
    · exact not_dependsNow_previous heq hlhs hdepends
  · intro x hx
    have hne : x ≠ "y" := by simpa [outputNames, c, overOutput] using hx
    simp [Env.set, hne]
  · intro x
    by_cases hx : x = "y" <;> simp [Env.set, hx, Value.numberType]

/-- The value of the assumption of a contract in the first cycle, for an output `y`. -/
def firstValue (c : ContractDef) (y : Bool) : Except Fault (List (List Bool)) :=
  (clauseTrace ⟨true, 8⟩ { packages := [] } c (fun _ => none)
    [(fun _ => none, Env.set (fun _ => none) "y" (.bool y))] Calls.empty).1

/-- The check is silent about the assumption of `c`, whose value is that of the output. -/
def Hidden (c : ContractDef) : Prop :=
  (∀ d ∈ checkAssumptions c [], d.code ≠ "C0020") ∧
    firstValue c true = .ok [[true]] ∧ firstValue c false = .ok [[false]]

/-- The current output reaches the assumption through the ghost variable `g = y`, and as
the clock of a `merge`. -/
theorem exists_current_output :
    Hidden (overOutput (.var "y") (.var "g")) ∧
    Hidden (overOutput (.const (.bool true)) (.merge "y" (.when (.var "g") "y" true)
      (.when (.unary .not (.var "g")) "y" false))) :=
  ⟨⟨by decide +kernel, rfl, rfl⟩, by decide +kernel, rfl, rfl⟩

end OpenLustre.ContractCheck
